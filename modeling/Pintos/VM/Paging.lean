import Pintos.VM.Faults

/-!
# Paging does not show

A process reads and writes bytes at addresses, and cannot tell where its pages are. The
history of a run says what it should read: the last byte stored at the address, or what
the page had at first. For a page of a segment this is what is in the file and then
zeros, and for a page of the stack what is in the frame it is given.

The processes here map no files, and nothing is written to the files of their segments.
-/

namespace Pintos.VM

open Lib FileSys UserProg Function List Option

/-! ## Addresses -/

theorem pgOfs_lt (a : UInt32) : pgOfs a < 4096 := by
  unfold pgOfs
  rw [UInt32.toNat_and]
  exact Nat.and_lt_two_pow a.toNat (show (0xfff : UInt32).toNat < 2 ^ 12 by decide)

theorem addr_ext {a c : UInt32} (hpage : pgRoundDown a = pgRoundDown c) (hofs : pgOfs a = pgOfs c) : a = c := by
  have hsplit : ∀ x m : UInt32, x = (x &&& m) ||| (x &&& ~~~m) := by
    intro x m
    apply UInt32.toBitVec_inj.mp
    ext i hi
    simp
    cases x.toBitVec[i] <;> cases m.toBitVec[i] <;> rfl
  have hlow : a &&& 0xfff = c &&& 0xfff := UInt32.toNat.inj hofs
  rw [hsplit a 0xfff, hsplit c 0xfff, hlow]
  exact congrArg _ hpage

/-! ## What a process should read -/

def lastStore (p : Nat) (a : UInt32) (as : List Act) : Option UInt8 :=
  as.foldl (fun r act => match act with
    | .store q c b => if q = p ∧ c = a then some b else r
    | _ => r) none

/-- Thread `p` gets `byte` from the address `a`, at once or after a page fault. -/
def Mem.Reads (s : Mem) (p : Nat) (a esp : UInt32) (byte : UInt8) : Prop :=
  ∃ s', s.load p a = some (byte, s') ∨
    ∃ s₁, s.pageFault p a esp = some s₁ ∧ s₁.load p a = some (byte, s')

/-- A state, and what its pages had at first, by thread and page address. -/
structure Traced where
  mem : Mem
  initial : Nat → UInt32 → Page

namespace Traced

def setInitial (t : Traced) (p : Nat) (va : UInt32) (page : Page) : Nat → UInt32 → Page :=
  update t.initial p (update (t.initial p) va page)

/-- What the pages had at first, with the page that `act` has made. -/
def initialAfter (t : Traced) (s : Mem) : Act → Nat → UInt32 → Page
  | .segment p file ofs upage readBytes _ =>
    -- bytes of the file, and then zeros
    t.setInitial p upage fun i =>
      if i.val < min readBytes 4096 then (t.mem.inode file).byte (ofs + i.val) else 0
  | .stack p =>
    t.setInitial p (pgRoundDown (PHYS_BASE - PGSIZE))
      (s.ram (s.pagedir p (pgRoundDown (PHYS_BASE - PGSIZE))).frame)
  | .fault p a _ =>
    -- the stack has grown if the page was not in the table
    if t.mem.findPage p a = some none then
      t.setInitial p (pgRoundDown a) (s.ram (s.pagedir p (pgRoundDown a)).frame)
    else t.initial
  | _ => t.initial

/-- What thread `p` should read at `a`. -/
def expected (t : Traced) (as : List Act) (p : Nat) (a : UInt32) : UInt8 :=
  (lastStore p a as).getD ((t.initial p (pgRoundDown a)).get (pgOfs a))

def step (t : Traced) (act : Act) : Option Traced := do
  let s ← t.mem.step act
  some ⟨s, t.initialAfter s act⟩

end Traced

variable {byte : UInt8}

namespace Mem

/-! ## Loads and stores -/

section
variable {s s' : Mem} {p q ptr ptr' : Nat} {a : UInt32} {b : UInt8} {e x : Spte}

theorem load_touched (hload : s.load p a = some (byte, s')) : Touched s s' := by
  unfold load at hload
  dsimp only at hload
  split at hload
  · cases hload
    exact touched_setAccessed s p (pgRoundDown a) true
  · cases hload

theorem Inv.load_spec (h : Inv s) (hload : s.load p a = some (byte, s')) :
    ∃ ptr e, s.Owns p ptr e ∧ e.userVaddr = pgRoundDown a ∧ byte = (s.content p e).get (pgOfs a) := by
  unfold load at hload
  dsimp only at hload
  split at hload
  · next hpte =>
    cases hload
    obtain ⟨ptr, e, hown, hva, hl⟩ := h.present hpte.2
    refine ⟨ptr, e, hown, hva, ?_⟩
    rw [content, if_pos hl, hva]
  · cases hload

structure Stores (s s' : Mem) (p : Nat) (a : UInt32) (b : UInt8) : Prop where
  inv : Inv s'
  owns : ∀ {q ptr x}, s'.Owns q ptr x ↔ s.Owns q ptr x
  page : ∃ ptr e, s.Owns p ptr e ∧ e.userVaddr = pgRoundDown a
  rests : SameRest s s'
  pool : s'.usedMap.length = s.usedMap.length
  self : ∀ {ptr e}, s.Owns p ptr e → e.userVaddr = pgRoundDown a →
    s'.content p e = (s.content p e).set (pgOfs a) b ∧ (s.Backed p e → s'.Backed p e)
  other : ∀ {q ptr x}, s.Owns q ptr x → ¬ (q = p ∧ x.userVaddr = pgRoundDown a) →
    s'.content q x = s.content q x ∧ (s.Backed q x → s'.Backed q x)

theorem Inv.store_spec (h : Inv s) (hstore : s.store p a b = some s') : Stores s s' p a b := by
  unfold store at hstore
  dsimp only at hstore
  split at hstore
  · next hpte =>
    cases hstore
    obtain ⟨ptr0, e0, hown0, hva0, hl0⟩ := h.present hpte.2.1
    have hpte_self := setPte_self s p (pgRoundDown a)
      { s.pagedir p (pgRoundDown a) with accessed := true, dirty := true }
    refine ⟨h.rebit fun q c => ?_, Iff.rfl, ⟨ptr0, e0, hown0, hva0⟩, (by constructor <;> rfl),
      rfl, ?_, ?_⟩
    · by_cases hqc : q = p ∧ c = pgRoundDown a
      · obtain ⟨rfl, rfl⟩ := hqc
        rw [hpte_self]
        exact ⟨rfl, rfl⟩
      · rw [setPte_ne s _ fun hq hc => hqc ⟨hq, hc⟩]
        exact ⟨rfl, rfl⟩
    · intro ptr e hown hva
      have hl := h.loaded_of_present hown (hva ▸ hpte.2.1)
      refine ⟨?_, fun hb => ⟨hb.toFormed, fun _ _ hd => ?_⟩⟩
      · simp only [content, if_pos hl, hva]
        rw [hpte_self, update_self]
      · -- the page is dirty now
        replace hd : ((s.setPte p (pgRoundDown a) _).pagedir p e.userVaddr).dirty = false := hd
        rw [hva, hpte_self] at hd
        cases hd
    · intro q ptr x hown hne
      have hsame := setPte_ne s (p := p) (q := q) (a := pgRoundDown a) (c := x.userVaddr)
        { s.pagedir p (pgRoundDown a) with accessed := true, dirty := true } fun hq hc => hne ⟨hq, hc⟩
      -- the page is in another frame
      have hram : x.loaded = true → update s.ram (s.pagedir p (pgRoundDown a)).frame
          ((s.ram (s.pagedir p (pgRoundDown a)).frame).set (pgOfs a) b) (s.pagedir q x.userVaddr).frame =
          s.ram (s.pagedir q x.userVaddr).frame := by
        intro hl
        refine update_of_ne (fun hframe => hne ?_) _ _
        have hfte := h.spte_eq (h.loaded hown hl).1 (h.loaded hown0 hl0).1 (hframe.trans (by rw [hva0]))
        obtain ⟨rfl, rfl⟩ : q = p ∧ ptr = ptr0 := ⟨congrArg Fte.owner hfte, congrArg Fte.spte hfte⟩
        cases hown.entry_eq hown0
        exact ⟨rfl, hva0⟩
      refine ⟨?_, fun hb => ⟨hb.toFormed, fun ht hl hd => ?_⟩⟩
      · by_cases hl : x.loaded = true
        · simp only [content, if_pos hl]
          rw [hsame]
          exact hram hl
        · simp only [content, if_neg hl]
          rfl
      · replace hd : ((s.setPte p (pgRoundDown a) _).pagedir q x.userVaddr).dirty = false := hd
        rw [hsame] at hd
        refine Eq.trans ?_ (hb.clean ht hl hd)
        show update s.ram _ _ ((s.setPte p (pgRoundDown a) _).pagedir q x.userVaddr).frame = _
        rw [hsame]
        exact hram hl
  · cases hstore

theorem Stores.get (hst : Stores s s' p a b) (hown : s.Owns q ptr x) {c : UInt32}
    (hc : pgRoundDown c = x.userVaddr) : (s'.content q x).get (pgOfs c) =
      if p = q ∧ a = c then b else (s.content q x).get (pgOfs c) := by
  by_cases hpage : q = p ∧ x.userVaddr = pgRoundDown a
  · obtain ⟨rfl, hva⟩ := hpage
    rw [(hst.self hown hva).1, Arr.get_set _ _ _ (pgOfs_lt c)]
    by_cases hofs : pgOfs c = pgOfs a
    · rw [if_pos hofs, if_pos ⟨rfl, addr_ext (hva.symm.trans hc.symm) hofs.symm⟩]
    · rw [if_neg hofs, if_neg fun heq => hofs (by rw [heq.2])]
  · rw [(hst.other hown hpage).1, if_neg fun heq => hpage ⟨heq.1.symm, by rw [← hc, heq.2]⟩]

theorem Stores.backed (hst : Stores s s' p a b) (hown : s.Owns q ptr x) (hb : s.Backed q x) :
    s'.Backed q x := by
  by_cases hpage : q = p ∧ x.userVaddr = pgRoundDown a
  · obtain ⟨rfl, hva⟩ := hpage
    exact (hst.self hown hva).2 hb
  · exact (hst.other hown hpage).2 hb

/-! ## A new page -/

/-- Thread `p` gets the page of `e`, and the other pages keep their content. -/
structure Adds (s s' : Mem) (p ptr : Nat) (e : Spte) : Prop where
  tables : ∀ {q ptr'}, ptr' ∈ s'.supPageTable q ↔ ptr' ∈ s.supPageTable q ∨ q = p ∧ ptr' = ptr
  pool : s'.usedMap.length = s.usedMap.length
  absent : ∀ {ptr' x}, s.Owns p ptr' x → x.userVaddr ≠ e.userVaddr
  owns : s'.Owns p ptr e
  backed : s'.Backed p e
  old : ∀ {q ptr' x}, s'.Owns q ptr' x → q = p ∧ ptr' = ptr ∧ x = e ∨
    ∃ x₀, s.Owns q ptr' x₀ ∧ SamePage x₀ x ∧
      (s.Backed q x₀ → s'.Backed q x ∧ s'.content q x = s.content q x₀)
  kept : ∀ {q ptr' x₀}, s.Owns q ptr' x₀ → ∃ x, s'.Owns q ptr' x ∧ SamePage x₀ x

theorem Inv.loadSegment_adds (h : Inv s) {file ofs : Nat} {upage : UInt32} {readBytes : Nat}
    {writable : Bool} (hls : s.loadSegment p file ofs upage readBytes writable = some s') :
    Inv s' ∧ ∃ ptr e, Adds s s' p ptr e ∧ e.userVaddr = upage ∧ s'.content p e = fun i =>
      if i.val < min readBytes 4096 then (s.inode file).byte (ofs + i.val) else 0 := by
  obtain ⟨e, he, rfl, hva⟩ := h.loadSegment_spec hls
  have hnew : ∀ q, s.next ∉ (s.fresh e).supPageTable q := h.next_unlisted
  refine ⟨(h.fresh e).enter hnew (Nat.lt_succ_self _) (by rw [he]; rfl) (by rw [he]; rfl)
      (by rw [he]; exact nofun) fun hown => ?_, s.next, e, ⟨mem_enter, rfl, ?_, ?_, ?_, ?_, ?_⟩,
      by rw [he]; rfl, by rw [he]; rfl⟩
  · exact he ▸ hva (h.fresh_owns.mp hown)
  · exact he ▸ hva
  · exact (enter_owns hnew).mpr (.inl ⟨rfl, rfl, rfl⟩)
  · rw [he]
    exact ⟨⟨fun _ => show min readBytes 4096 + (4096 - min readBytes 4096) = 4096 by omega, nofun⟩, nofun⟩
  · intro q ptr' x hx
    rcases (enter_owns hnew).mp hx with hx | hx
    · exact .inl hx
    · exact .inr ⟨x, h.fresh_owns.mp hx, SamePage.refl x, fun hb => ⟨⟨hb.toFormed, hb.clean⟩, rfl⟩⟩
  · intro q ptr' x hx
    exact ⟨x, (enter_owns hnew).mpr (.inr (h.fresh_owns.mpr hx)), SamePage.refl x⟩

theorem Inv.growStack_adds (h : Inv s) {addr : UInt32} {pType : PallocType}
    (htype : pType = .growStack ∨ pType = .pageFault)
    (hgs : s.growStack p addr pType = some (true, s')) :
    Inv s' ∧ ∃ ptr e, Adds s s' p ptr e ∧ e.userVaddr = pgRoundDown addr ∧
      s'.content p e = s'.ram (s'.pagedir p (pgRoundDown addr)).frame := by
  obtain ⟨s1, f, page, room, hfree, hva, rfl⟩ := h.growStack_spec htype hgs
  have h1 := room.inv (h.fresh _)
  have hkeeps := (h.fresh_keeps _).trans (room.keeps (h.fresh _))
  have hnew : ∀ q, s.next ∉ s1.supPageTable q := room.rests.tables ▸ h.next_unlisted
  have hlt : s.next < s1.next := room.rests.next ▸ Nat.lt_succ_self _
  have henter : Inv (s1.enter p s.next (stackSpte (pgRoundDown addr))) :=
    h1.enter hnew hlt rfl rfl nofun hva
  have m := henter.install_moves ((enter_owns hnew).mpr (.inl ⟨rfl, rfl, rfl⟩)) rfl hfree page
  refine ⟨henter.moves m, s.next, _, ⟨?_, m.pool.trans hkeeps.pool, ?_, m.owns_self,
    ⟨⟨nofun, nofun⟩, nofun⟩, ?_, ?_⟩, rfl, rfl⟩
  · intro q ptr'
    rw [m.tables, mem_enter, hkeeps.tables]
  · intro ptr' x hx
    obtain ⟨x', hx', hsame, -⟩ := hkeeps.owns hx
    exact hsame.vaddr ▸ hva hx'
  · intro q ptr' x hx
    rcases m.owns_cases henter hx with hx | ⟨hne, hx⟩
    · exact .inl hx
    · -- an old page: it was there before the entry, and has not been moved
      rcases (enter_owns hnew).mp hx with ⟨-, hptr, -⟩ | hold
      · exact absurd hptr hne
      · obtain ⟨x0, hx0, hsame, hback⟩ := hkeeps.back hold
        refine .inr ⟨x0, hx0, hsame, fun hb => ?_⟩
        obtain ⟨hb', hc⟩ := hback hb
        obtain ⟨-, henterb, henterc⟩ := enter_keeps (p := p) (e := stackSpte (pgRoundDown addr)) hnew hold
        exact ⟨m.backed_other henter hne hx (henterb hb'),
          (m.content_other henter hne hx).trans (henterc.trans hc)⟩
  · intro q ptr' x0 hx0
    obtain ⟨x, hx, hsame, -⟩ := hkeeps.owns hx0
    have hne : ptr' ≠ s.next := fun heq => hnew q (heq ▸ hx.1)
    exact ⟨x, (m.owns_ne hne).mpr ((enter_owns hnew).mpr (.inr hx)), hsame⟩

/-- **A page fault** brings a page in, or gives the stack another page. -/
theorem Inv.pageFault_cases (h : Inv s) (hformed : ∀ {p ptr e}, s.Owns p ptr e → Formed e)
    {esp : UInt32} (hpf : s.pageFault p a esp = some s') :
    (∃ ptr e, s.findPage p a = some (some ptr) ∧ s.Owns p ptr e ∧ e.loaded = false ∧
        BringsIn s s' p ptr e) ∨
      s.findPage p a = some none ∧ s.growStack p a .pageFault = some (true, s') := by
  unfold pageFault at hpf
  split at hpf
  · next hpte =>
    obtain ⟨r, hfind, hpf⟩ := bind_eq_some_iff.mp hpf
    cases r with
    | some ptr =>
      obtain ⟨⟨b, s1⟩, hph, hpf⟩ := bind_eq_some_iff.mp hpf
      obtain ⟨hmem, e, he, hva⟩ := search_found hfind
      have hown : s.Owns p ptr e := ⟨hmem, he⟩
      have hpres : (s.pagedir p e.userVaddr).present = false := hva ▸ hpte.2
      have hl : e.loaded = false := by
        by_contra hl
        rw [(h.loaded hown (Bool.eq_true_of_not_eq_false hl)).2] at hpres
        cases hpres
      obtain ⟨rfl, hbr⟩ := h.pageHandling_spec hown (hformed hown) hpres hph
      cases hpf
      exact .inl ⟨ptr, e, hfind, hown, hl, hbr⟩
    | none =>
      dsimp only at hpf
      split at hpf
      · cases hpf
      · split at hpf
        · obtain ⟨⟨b, s1⟩, hgs, hpf⟩ := bind_eq_some_iff.mp hpf
          dsimp only at hpf
          split at hpf
          · next hb =>
            cases hpf
            exact .inr ⟨hfind, hb ▸ hgs⟩
          · cases hpf
        · cases hpf
  · cases hpf

theorem setupStack_cases (hss : s.setupStack p = some s') :
    s.growStack p (PHYS_BASE - PGSIZE) .growStack = some (true, s') := by
  obtain ⟨⟨b, s1⟩, hgs, hss⟩ := bind_eq_some_iff.mp hss
  dsimp only at hss
  split at hss
  · next hb =>
    cases hss
    exact hb ▸ hgs
  · cases hss

end

end Mem

/-! ## The bytes of the pages -/

/-- The byte that a page should have, and has: every page holds what the history says,
wherever it is. -/
structure Remembers (pages : Nat) (t : Traced) (as : List Act) : Prop where
  inv : t.mem.Inv
  pool : t.mem.usedMap.length = pages
  live : ∀ {p ptr}, ptr ∈ t.mem.supPageTable p → ∃ e, t.mem.Owns p ptr e
  backed : ∀ {p ptr e}, t.mem.Owns p ptr e → t.mem.Backed p e
  bytes : ∀ {p ptr e}, t.mem.Owns p ptr e → ∀ a, pgRoundDown a = e.userVaddr →
    (t.mem.content p e).get (pgOfs a) =
      (lastStore p a as).getD ((t.initial p e.userVaddr).get (pgOfs a))
  none : ∀ {p a}, (∀ {ptr e}, t.mem.Owns p ptr e → e.userVaddr ≠ pgRoundDown a) → lastStore p a as = none

section
variable {pages : Nat} {t : Traced} {as : List Act} {act : Act} {s' : Mem}

theorem lastStore_snoc_store (p q : Nat) (a c : UInt32) (b : UInt8) (as : List Act) :
    lastStore p a (as ++ [.store q c b]) = if q = p ∧ c = a then some b else lastStore p a as := by
  rw [lastStore, foldl_append]
  rfl

theorem lastStore_snoc (p : Nat) (a : UInt32) (as : List Act) (h : ∀ q c b, act ≠ .store q c b) :
    lastStore p a (as ++ [act]) = lastStore p a as := by
  rw [lastStore, foldl_append]
  cases act with
  | store q c b => exact absurd rfl (h q c b)
  | _ => rfl

theorem Remembers.keeps (k : Remembers pages t as) (hinv : s'.Inv) (hkeeps : t.mem.Keeps s')
    (hact : ∀ q c b, act ≠ .store q c b) : Remembers pages ⟨s', t.initial⟩ (as ++ [act]) where
  inv := hinv
  pool := hkeeps.pool.trans k.pool
  live hmem := by
    obtain ⟨e, hold⟩ := k.live (hkeeps.tables ▸ hmem)
    obtain ⟨e', hown, -⟩ := hkeeps.owns hold
    exact ⟨e', hown⟩
  backed hown := by
    obtain ⟨e, hold, -, hback⟩ := hkeeps.back hown
    exact (hback (k.backed hold)).1
  bytes := by
    intro p ptr e' hown a ha
    obtain ⟨e, hold, hsame, hback⟩ := hkeeps.back hown
    rw [(hback (k.backed hold)).2, lastStore_snoc p a as hact, hsame.vaddr]
    exact k.bytes hold a (ha.trans hsame.vaddr)
  none := by
    intro p a habs
    rw [lastStore_snoc p a as hact]
    refine k.none fun hold => ?_
    obtain ⟨e', hown, hsame, -⟩ := hkeeps.owns hold
    exact hsame.vaddr ▸ habs hown

variable {p ptr : Nat} {e : Spte} {a : UInt32}

theorem Remembers.adds (k : Remembers pages t as) (hinv : s'.Inv) (hadds : t.mem.Adds s' p ptr e)
    (hact : ∀ q c b, act ≠ .store q c b) :
    Remembers pages ⟨s', t.setInitial p e.userVaddr (s'.content p e)⟩ (as ++ [act]) where
  inv := hinv
  pool := hadds.pool.trans k.pool
  live hmem := by
    rcases hadds.tables.mp hmem with hmem | ⟨rfl, rfl⟩
    · obtain ⟨x0, hold⟩ := k.live hmem
      obtain ⟨x, hown, -⟩ := hadds.kept hold
      exact ⟨x, hown⟩
    · exact ⟨e, hadds.owns⟩
  backed hown := by
    rcases hadds.old hown with ⟨rfl, rfl, rfl⟩ | ⟨x0, hold, -, hback⟩
    · exact hadds.backed
    · exact (hback (k.backed hold)).1
  bytes := by
    intro q ptr' x hown a ha
    rw [lastStore_snoc q a as hact]
    rcases hadds.old hown with ⟨rfl, rfl, rfl⟩ | ⟨x0, hold, hsame, hback⟩
    · -- nothing has been stored there, since there was no page
      rw [k.none fun hold => ha ▸ hadds.absent hold]
      show _ = (t.setInitial q x.userVaddr (s'.content q x) q x.userVaddr).get (pgOfs a)
      rw [Traced.setInitial, update_self, update_self]
    · have hinit : t.setInitial p e.userVaddr (s'.content p e) q x.userVaddr = t.initial q x0.userVaddr := by
        rw [hsame.vaddr]
        unfold Traced.setInitial
        by_cases hq : q = p
        · subst hq
          rw [update_self, update_of_ne (hadds.absent hold)]
        · rw [update_of_ne hq]
      show (s'.content q x).get (pgOfs a) =
        (lastStore q a as).getD ((t.setInitial p e.userVaddr (s'.content p e) q x.userVaddr).get (pgOfs a))
      rw [hinit, (hback (k.backed hold)).2]
      exact k.bytes hold a (ha.trans hsame.vaddr)
  none := by
    intro q a habs
    rw [lastStore_snoc q a as hact]
    refine k.none fun hold => ?_
    obtain ⟨x, hown, hsame⟩ := hadds.kept hold
    exact hsame.vaddr ▸ habs hown

theorem Remembers.stores (k : Remembers pages t as) {b : UInt8} (hst : t.mem.Stores s' p a b) :
    Remembers pages ⟨s', t.initial⟩ (as ++ [.store p a b]) where
  inv := hst.inv
  pool := hst.pool.trans k.pool
  live hmem := by
    obtain ⟨e, hold⟩ := k.live (hst.rests.tables ▸ hmem)
    exact ⟨e, hst.owns.mpr hold⟩
  backed hown := hst.backed (hst.owns.mp hown) (k.backed (hst.owns.mp hown))
  bytes := by
    intro q ptr x hown c hc
    have hold := hst.owns.mp hown
    rw [lastStore_snoc_store, hst.get hold hc]
    by_cases hpc : p = q ∧ a = c
    · rw [if_pos hpc, if_pos hpc]
      rfl
    · rw [if_neg hpc, if_neg hpc]
      exact k.bytes hold c hc
  none := by
    intro q c habs
    rw [lastStore_snoc_store]
    obtain ⟨ptr, e, hpage, hva⟩ := hst.page
    rw [if_neg fun heq => habs (heq.1 ▸ hst.owns.mpr hpage) (by rw [hva, heq.2])]
    exact k.none fun hold => habs (hst.owns.mpr hold)

theorem Remembers.step (k : Remembers pages t as) {t' : Traced} (hstep : t.step act = some t') : Remembers pages t' (as ++ [act]) := by
  obtain ⟨s', hmem, heq⟩ := bind_eq_some_iff.mp hstep
  cases heq
  unfold Mem.step at hmem
  split at hmem
  · cases act with
    | segment p file ofs upage readBytes writable =>
      obtain ⟨hinv, ptr, e, hadds, hva, hcontent⟩ := k.inv.loadSegment_adds hmem
      have hk : Remembers pages _ (as ++ [.segment p file ofs upage readBytes writable]) := k.adds hinv hadds (by simp)
      rw [hva, hcontent] at hk
      exact hk
    | stack p =>
      obtain ⟨hinv, ptr, e, hadds, hva, hcontent⟩ :=
        k.inv.growStack_adds (.inl rfl) (Mem.setupStack_cases hmem)
      have hk : Remembers pages _ (as ++ [.stack p]) := k.adds hinv hadds (by simp)
      rw [hva, hcontent] at hk
      exact hk
    | load p a =>
      obtain ⟨⟨byte, s1⟩, hload, rfl⟩ := map_eq_some_iff.mp hmem
      have ht := Mem.load_touched hload
      exact k.keeps (ht.inv k.inv) ht.keeps (by simp)
    | store p a b => exact k.stores (k.inv.store_spec hmem)
    | fault p a esp =>
      rcases k.inv.pageFault_cases (fun hown => (k.backed hown).toFormed) hmem with ⟨ptr, e, hfind, hown, hl, hbr⟩ | ⟨hfind, hgs⟩
      · have hinit : t.initialAfter s' (.fault p a esp) = t.initial := if_neg (by rw [hfind]; simp)
        rw [hinit]
        exact k.keeps (hbr.inv k.inv hl) (hbr.keeps k.inv hl) (by simp)
      · obtain ⟨hinv, ptr, e, hadds, hva, hcontent⟩ := k.inv.growStack_adds (.inr rfl) hgs
        have hk : Remembers pages _ (as ++ [.fault p a esp]) := k.adds hinv hadds (by simp)
        rw [hva, hcontent] at hk
        have hinit : t.initialAfter s' (.fault p a esp) =
            t.setInitial p (pgRoundDown a) (s'.ram (s'.pagedir p (pgRoundDown a)).frame) := if_pos hfind
        rw [hinit]
        exact hk
    | evict =>
      obtain ⟨⟨b, s1⟩, hev, rfl⟩ := map_eq_some_iff.mp hmem
      rcases k.inv.evictFrame_spec hev with ⟨-, hevicts⟩ | ⟨-, -, hage⟩
      · exact k.keeps (hevicts.inv k.inv) (hevicts.keeps k.inv) (by simp)
      · exact k.keeps (hage.inv k.inv) hage.keeps (by simp)
  · cases hmem

theorem remembers_start (pages : Nat) (ram : Nat → Page) (capacity : UInt32) (device : Disk)
    (inode : Nat → File) (fds : Nat → Nat → Option Nat) (initial : Nat → UInt32 → Page) :
    Remembers pages ⟨Mem.start pages ram capacity device inode fds, initial⟩ [] where
  inv := by
    have hno : ∀ p ptr e, ¬ (Mem.start pages ram capacity device inode fds).Owns p ptr e :=
      fun p ptr e hown => not_mem_nil hown.1
    exact {
      owner := fun hp => absurd hp not_mem_nil
      below := fun hp => absurd hp not_mem_nil
      vaddr := fun hown => absurd hown (hno _ _ _)
      typed := fun hown => absurd hown (hno _ _ _)
      resident := fun hfte => absurd hfte not_mem_nil
      used := fun hfte => absurd hfte not_mem_nil
      pooled := fun hused => by
        rw [show (Mem.start pages ram capacity device inode fds).usedMap = List.replicate pages false from rfl,
          getElem?_replicate] at hused
        split at hused <;> cases hused
      nodup := nodup_nil
      framed := fun hown => absurd hown (hno _ _ _)
      present := fun hpres => absurd hpres Bool.false_ne_true
      swapped := fun hown => absurd hown (hno _ _ _)
      slots := fun hown => absurd hown (hno _ _ _) }
  pool := length_replicate
  live hmem := absurd hmem not_mem_nil
  backed hown := absurd hown.1 not_mem_nil
  bytes hown := absurd hown.1 not_mem_nil
  none _ := rfl

theorem Remembers.run {t0 : Traced} (hrun : Run Traced.step (fun _ _ => True) t0 as t)
    (k : Remembers pages t0 []) : Remembers pages t as := by
  induction hrun with
  | nil => exact k
  | snoc _ _ hstep ih => exact ih.step hstep

/-! ## What a process reads -/

theorem Remembers.load_eq (k : Remembers pages t as) (hload : t.mem.load p a = some (byte, s')) :
    byte = t.expected as p a := by
  obtain ⟨ptr, e, hown, hva, rfl⟩ := k.inv.load_spec hload
  rw [k.bytes hown a hva.symm, hva]
  rfl

theorem load_of_present {s : Mem} (huser : isUserVaddr a = true)
    (hpres : (s.pagedir p (pgRoundDown a)).present = true) :
    ∃ byte s', s.load p a = some (byte, s') := by
  refine ⟨_, _, if_pos ⟨huser, hpres⟩⟩

theorem Remembers.findPage (k : Remembers pages t as) (hown : t.mem.Owns p ptr e)
    (hva : e.userVaddr = pgRoundDown a) :
    t.mem.findPage p a = some (some ptr) := by
  have hsearch : ∃ r, t.mem.findPage p a = some r :=
    Mem.exists_search fun ptr' hmem => (k.live hmem).imp fun _ hx => hx.2
  obtain ⟨r, hr⟩ := hsearch
  rw [hr, k.inv.search_eq hown (r := r) (hva ▸ hr)]

theorem Remembers.reads (k : Remembers pages t as) (esp : UInt32) (halive : t.mem.alive p = true)
    (hown : t.mem.Owns p ptr e) (hva : e.userVaddr = pgRoundDown a) (huser : isUserVaddr a = true)
    (hpages : 0 < pages) (hslot : t.mem.FreeSlot)
    (hfile : e.fileType = .file → e.offset + e.readBytes ≤ (t.mem.inode e.file).length) :
    t.mem.Reads p a esp (t.expected as p a) := by
  by_cases hpres : (t.mem.pagedir p (pgRoundDown a)).present = true
  · obtain ⟨byte, s', hload⟩ := load_of_present huser hpres
    exact ⟨s', .inl (k.load_eq hload ▸ hload)⟩
  · have hpres' : (t.mem.pagedir p e.userVaddr).present = false :=
      hva ▸ Bool.eq_false_of_not_eq_true hpres
    have hl : e.loaded = false := by
      by_contra hl
      rw [(k.inv.loaded hown (Bool.eq_true_of_not_eq_false hl)).2] at hpres'
      cases hpres'
    obtain ⟨⟨b, s1⟩, hph⟩ := k.inv.exists_pageHandling hown (k.backed hown).toFormed hl hslot (k.pool ▸ hpages) hfile
    obtain ⟨rfl, hbr⟩ := k.inv.pageHandling_spec hown (k.backed hown).toFormed hpres' hph
    have hfind := k.findPage hown hva
    have hpf : t.mem.pageFault p a esp = some s1 := by
      rw [Mem.pageFault, if_pos ⟨huser, hva ▸ hpres'⟩, hfind]
      simp only [some_bind, hph, if_true]
    -- the step of the fault keeps what the page should have
    have hstep : t.step (.fault p a esp) = some ⟨s1, t.initial⟩ := by
      have hact : t.mem.step (.fault p a esp) = some s1 := by
        rw [Mem.step, if_pos (by exact halive)]
        exact hpf
      have hinit : t.initialAfter s1 (.fault p a esp) = t.initial := if_neg (by rw [hfind]; simp)
      rw [Traced.step, hact, some_bind, hinit]
    have hpres1 : (s1.pagedir p (pgRoundDown a)).present = true := by
      obtain ⟨s2, f, -, -, -, rfl⟩ := hbr
      rw [← hva]
      exact congrArg Pte.present (Mem.setPte_self s2 p e.userVaddr _)
    obtain ⟨byte, s', hload⟩ := load_of_present huser hpres1
    have hbyte := (k.step hstep).load_eq hload
    have hsame : Traced.expected ⟨s1, t.initial⟩ (as ++ [.fault p a esp]) p a = t.expected as p a := by
      rw [Traced.expected, lastStore_snoc p a as (by simp)]
      rfl
    exact ⟨s', .inr ⟨s1, hpf, hsame ▸ hbyte ▸ hload⟩⟩

end

/-- **Paging does not show.** In every run of any number of processes, what a load returns
is the last byte stored at that address by that process, or what the page had there at
first; and a load from a page of the process does return, while a swap slot is free. -/
theorem load_returns_last_store {pages : Nat} {ram : Nat → Page} {capacity : UInt32} {device : Disk}
    {inode : Nat → File} {fds : Nat → Nat → Option Nat} {initial : Nat → UInt32 → Page}
    {as : List Act} {t : Traced}
    (hrun : Run Traced.step (fun _ _ => True)
      ⟨Mem.start pages ram capacity device inode fds, initial⟩ as t) :
    (∀ p a byte s', t.mem.load p a = some (byte, s') → byte = t.expected as p a) ∧
    ∀ p ptr e a esp, t.mem.alive p = true → t.mem.Owns p ptr e → e.userVaddr = pgRoundDown a →
      isUserVaddr a = true → 0 < pages → t.mem.FreeSlot →
      (e.fileType = .file → e.offset + e.readBytes ≤ (t.mem.inode e.file).length) →
      t.mem.Reads p a esp (t.expected as p a) := by
  have k := Remembers.run hrun (remembers_start pages ram capacity device inode fds initial)
  exact ⟨fun p a byte s' hload => k.load_eq hload,
    fun p ptr e a esp halive hown hva huser hpages hslot hfile =>
      k.reads esp halive hown hva huser hpages hslot hfile⟩

/-- A pool of one page, two processes. The page that the first has written goes to the
swap device and comes back. -/
theorem load_returns_last_store_two_processes :
    ∃ as t byte s', Run Traced.step (fun _ _ => True)
        ⟨Mem.start 1 (fun _ => Arr.const 0) 16 (fun _ => Arr.const 0)
          (fun _ => ⟨3, fun _ => 9, 1, 1⟩) (fun _ _ => none), fun _ _ => Arr.const 0⟩ as t ∧
      t.mem.load 0 0x8048001 = some (byte, s') ∧ byte = 7 ∧ byte = t.expected as 0 0x8048001 := by
  obtain ⟨t, hrun, s', hload⟩ : ∃ t, Run Traced.step (fun _ _ => True)
      ⟨Mem.start 1 (fun _ => Arr.const 0) 16 (fun _ => Arr.const 0)
        (fun _ => ⟨3, fun _ => 9, 1, 1⟩) (fun _ _ => none), fun _ _ => Arr.const 0⟩
      [.segment 0 5 0 0x8048000 3 true, .fault 0 0x8048001 0, .store 0 0x8048001 7, .stack 1,
        .fault 0 0x8048001 0] t ∧ ∃ s', t.mem.load 0 0x8048001 = some (7, s') := by
    decide +kernel
  exact ⟨_, t, 7, s', hrun, hload, rfl, (load_returns_last_store hrun).1 0 _ 7 s' hload⟩

end Pintos.VM
