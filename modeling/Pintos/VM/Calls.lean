import Pintos.VM.Unmapping

/-!
# Every call keeps the structures in agreement

Processes load and store, take page faults, map and unmap files and exit, in any order.
-/

namespace Pintos.VM

open Lib FileSys UserProg Function List Option

namespace Mem

/-! ## mmap -/

section
variable {s s' : Mem} {p ptr file n : Nat} {e : Spte} {addr : UInt32} {readBytes offset : Nat}

theorem Valid.below (v : Valid s) (p : Nat) : Below s p := fun _ hmem => v.inv.below hmem

variable {q ptr' : Nat} {x : Spte}

theorem mapped_owns (h : Inv s) :
    (s.mapped p e).Owns q ptr' x ↔ q = p ∧ ptr' = s.next ∧ x = e ∨ s.Owns q ptr' x := by
  have henter : ((s.fresh e).enter p s.next e).Owns q ptr' x ↔
      q = p ∧ ptr' = s.next ∧ x = e ∨ (s.fresh e).Owns q ptr' x := enter_owns h.next_unlisted
  rw [h.fresh_owns] at henter
  exact henter

theorem Valid.mapped (v : Valid s) (halive : s.alive p = true) (hl : e.loaded = false)
    (hsw : e.isSwapped = false) (htype : e.fileType = .file) (hfull : e.readBytes + e.zeroBytes = 4096)
    (hva : ∀ {ptr x}, s.Owns p ptr x → x.userVaddr ≠ e.userVaddr) :
    Valid (s.mapped p e) ∧ (s.NoLeak → (s.mapped p e).NoLeak) := by
  have henter : Inv ((s.fresh e).enter p s.next e) :=
    (v.inv.fresh e).enter v.inv.next_unlisted (Nat.lt_succ_self _) hl hsw (by rw [htype]; nofun)
      fun hown => hva (v.inv.fresh_owns.mp hown)
  have hnone : ∀ {q}, s.next ∉ s.listMmap q := by
    intro q hmem
    obtain ⟨x, hx⟩ := v.listed hmem
    exact v.inv.next_unlisted q hx.1
  refine ⟨?_, fun hn => ?_⟩
  · exact {
      inv := henter.rebit fun _ _ => ⟨rfl, rfl⟩
      formed := fun {q ptr' x} hown => by
        rcases (mapped_owns v.inv).mp hown with ⟨-, -, rfl⟩ | hold
        · exact ⟨fun _ => hfull, fun ht => by rw [htype] at ht; cases ht⟩
        · exact v.formed hold
      listed := fun {q ptr'} hmem => by
        replace hmem : ptr' ∈ update s.listMmap p (s.listMmap p ++ [s.next]) q := hmem
        by_cases hq : q = p
        · subst hq
          rw [update_self, mem_append, mem_singleton] at hmem
          rcases hmem with hmem | rfl
          · obtain ⟨x, hx⟩ := v.listed hmem
            exact ⟨x, (mapped_owns v.inv).mpr (.inr hx)⟩
          · exact ⟨e, (mapped_owns v.inv).mpr (.inl ⟨rfl, rfl, rfl⟩)⟩
        · rw [update_of_ne hq] at hmem
          obtain ⟨x, hx⟩ := v.listed hmem
          exact ⟨x, (mapped_owns v.inv).mpr (.inr hx)⟩
      once := fun q => by
        show (update s.listMmap p (s.listMmap p ++ [s.next]) q).Nodup
        by_cases hq : q = p
        · subst hq
          rw [update_self]
          exact (v.once q).append (nodup_singleton _) (disjoint_singleton.mpr hnone)
        · rw [update_of_ne hq]
          exact v.once q
      dead := fun {q} hdead => (enter_table (s := s.fresh e) (e := e) halive hdead).trans (v.dead hdead)
      dirty := fun {q a} hd => by
        rcases v.dirty hd with ⟨ptr', hmem, hfree⟩ | ⟨ptr', x, hx, hva⟩
        · refine .inl ⟨ptr', (mem_enter (e := e)).mpr (.inl hmem), ?_⟩
          rw [mapped_heap, update_of_ne (v.inv.below hmem).ne]
          exact hfree
        · exact .inr ⟨ptr', x, (mapped_owns v.inv).mpr (.inr hx), hva⟩ }
  · intro idx hused
    obtain ⟨q, ptr', x, hx, hrest⟩ := hn hused
    exact ⟨q, ptr', x, (mapped_owns v.inv).mpr (.inr hx), hrest⟩

theorem relabel_owns (hown : s.Owns p ptr e) (hx : s.Owns q ptr' x) :
    ∃ m, (s.relabel p ptr e).Owns q ptr' { x with mapId := m } := by
  by_cases hptr : ptr' = ptr
  · subst hptr
    cases hx.entry_eq hown
    exact ⟨_, hx.1, update_self ..⟩
  · exact ⟨x.mapId, hx.1, (update_of_ne hptr _ _).trans hx.2⟩

theorem relabel_back (hown : s.Owns p ptr e) {x' : Spte}
    (hx' : (s.relabel p ptr e).Owns q ptr' x') :
    ∃ x, s.Owns q ptr' x ∧ x' = { x with mapId := x'.mapId } := by
  obtain ⟨hmem, hheap⟩ := hx'
  replace hheap : update s.heap ptr (some { e with mapId := some (s.mapId p) }) ptr' = some x' := hheap
  by_cases hptr : ptr' = ptr
  · subst hptr
    rw [update_self] at hheap
    cases hheap
    exact ⟨e, ⟨hmem, hown.2⟩, rfl⟩
  · rw [update_of_ne hptr] at hheap
    exact ⟨x', ⟨hmem, hheap⟩, rfl⟩

theorem Inv.relabel (h : Inv s) (hown : s.Owns p ptr e) : Inv (s.relabel p ptr e) where
  __ := h
  vaddr hx hy hva := by
    obtain ⟨x, hx, heq⟩ := relabel_back hown hx
    obtain ⟨y, hy, heq'⟩ := relabel_back hown hy
    rw [heq, heq'] at hva
    exact h.vaddr hx hy hva
  typed hx := by
    obtain ⟨x, hx, heq⟩ := relabel_back hown hx
    rw [heq]
    exact (show x.fileType ≠ .mmap from h.typed hx)
  resident hfte := by
    obtain ⟨x, hx, hrest⟩ := h.resident hfte
    obtain ⟨m, hx'⟩ := relabel_owns hown hx
    exact ⟨_, hx', hrest⟩
  framed hx hl := by
    obtain ⟨x, hx, heq⟩ := relabel_back hown hx
    rw [heq] at hl
    exact h.framed hx hl
  present hpres := by
    obtain ⟨ptr', x, hx, hrest⟩ := h.present hpres
    obtain ⟨m, hx'⟩ := relabel_owns hown hx
    exact ⟨ptr', _, hx', hrest⟩
  swapped hx hsw := by
    obtain ⟨x, hx, heq⟩ := relabel_back hown hx
    rw [heq] at hsw ⊢
    have hold := h.swapped hx hsw
    exact hold
  slots hx hy hsw hsw' hnum := by
    obtain ⟨x, hx, heq⟩ := relabel_back hown hx
    obtain ⟨y, hy, heq'⟩ := relabel_back hown hy
    rw [heq] at hsw hnum
    rw [heq'] at hsw' hnum
    exact h.slots hx hy hsw hsw' hnum

theorem Valid.relabel (v : Valid s) (hown : s.Owns p ptr e) :
    Valid (s.relabel p ptr e) ∧ (s.NoLeak → (s.relabel p ptr e).NoLeak) := by
  refine ⟨⟨v.inv.relabel hown, fun hx => ?_, fun hmem => ?_, v.once, v.dead, fun hd => ?_⟩, fun hn => ?_⟩
  · obtain ⟨x, hx, heq⟩ := relabel_back hown hx
    rw [heq]
    exact ⟨(v.formed hx).full, (v.formed hx).kept⟩
  · obtain ⟨x, hx⟩ := v.listed hmem
    obtain ⟨m, hx'⟩ := relabel_owns hown hx
    exact ⟨_, hx'⟩
  · rcases v.dirty hd with ⟨ptr', hmem, hfree⟩ | ⟨ptr', x, hx, hva⟩
    · have hne : ptr' ≠ ptr := by
        rintro rfl
        exact absurd (hfree.symm.trans hown.2) nofun
      exact .inl ⟨ptr', hmem, (update_of_ne hne _ _).trans hfree⟩
    · obtain ⟨m, hx'⟩ := relabel_owns hown hx
      exact .inr ⟨ptr', _, hx', hva⟩
  · intro idx hused
    obtain ⟨q, ptr', x, hx, hrest⟩ := hn hused
    obtain ⟨m, hx'⟩ := relabel_owns hown hx
    exact ⟨q, ptr', _, hx', hrest⟩

/-- The address of a page that `find_page` has not found. -/
theorem findPage_absent (haddr : pgOfs addr = 0) (hfind : s.findPage p addr = some none)
    (hx : s.Owns p ptr x) : x.userVaddr ≠ addr := by
  obtain ⟨y, hy, hne⟩ := search_absent hfind ptr hx.1
  rw [pgRoundDown_aligned haddr] at hne
  cases Option.some.inj (hx.2.symm.trans hy)
  exact hne

/-- **The loop of `mmap`**, whether it succeeds or not. -/
theorem Valid.mapPages (v : Valid s) (halive : s.alive p = true) (haddr : pgOfs addr = 0) {b : Bool}
    (h : s.mapPages p file n addr readBytes offset = some (b, s')) :
    Valid s' ∧ (s.NoLeak → s'.NoLeak) := by
  induction n generalizing s addr readBytes offset with
  | zero =>
    cases h
    exact ⟨v, id⟩
  | succ n ih =>
    obtain ⟨⟨b1, s1⟩, hpage, h⟩ := bind_eq_some_iff.mp h
    rcases (v.below p).mapPage_cases haddr hpage with ⟨rfl, rfl, -, hfind⟩ | ⟨rfl, ptr, e, hown, rfl⟩
    · have hfull : min readBytes 4096 + (4096 - min readBytes 4096) = 4096 := by omega
      obtain ⟨v1, hn1⟩ := v.mapped (e := s.mapSpte p file addr (min readBytes 4096) offset) halive rfl rfl rfl
        hfull (findPage_absent haddr hfind)
      obtain ⟨v', hn'⟩ := ih v1 halive (pgOfs_add_pgsize haddr) h
      exact ⟨v', fun hn => hn' (hn1 hn)⟩
    · -- the loop ends here
      cases h
      exact v.relabel hown

/-- **`mmap`**, whatever it returns. -/
theorem Valid.mmap (v : Valid s) (halive : s.alive p = true) {fd : Nat} {id : Int}
    (h : s.mmap p fd addr = some (id, s')) : Valid s' ∧ (s.NoLeak → s'.NoLeak) := by
  unfold Mem.mmap at h
  split at h
  · cases h
    exact ⟨v, fun hn => hn⟩
  · next file _ =>
    split at h
    · cases h
      exact ⟨v, fun hn => hn⟩
    · next haddr =>
      have hofs : pgOfs addr = 0 := not_not.mp (not_or.mp haddr).1
      have v1 : Valid (s.fileReopen file) := v.reset _ s.mapId
      dsimp only at h
      split at h
      · cases h
        exact ⟨v1, fun hn => hn⟩
      · obtain ⟨⟨b, s1⟩, hpages, h⟩ := bind_eq_some_iff.mp h
        obtain ⟨v2, hn2⟩ := v1.mapPages halive hofs hpages
        cases b with
        | false =>
          cases h
          exact ⟨v2, hn2⟩
        | true =>
          cases h
          exact ⟨v2.reset s1.inode _, hn2⟩

theorem Inv.mappedPages_owns (h : Inv s) :
    (s.mappedPages p file n addr readBytes offset).Owns q ptr' x ↔
      q = p ∧ (∃ i < n, ptr' = s.next + i ∧ x = s.pageSpte p file addr readBytes offset i) ∨
        s.Owns q ptr' x := by
  have htable : ptr' ∈ (s.mappedPages p file n addr readBytes offset).supPageTable q ↔
      ptr' ∈ s.supPageTable q ∨ q = p ∧ s.next ≤ ptr' ∧ ptr' < s.next + n := by
    show ptr' ∈ update s.supPageTable p (s.supPageTable p ++ List.range' s.next n) q ↔ _
    by_cases hq : q = p
    · subst hq
      rw [update_self, mem_append, mem_range'_1]
      simp
    · rw [update_of_ne hq]
      simp [hq]
  show ptr' ∈ (s.mappedPages p file n addr readBytes offset).supPageTable q ∧ (if _ then _ else _) = some x ↔ _
  rw [htable]
  by_cases hin : s.next ≤ ptr' ∧ ptr' < s.next + n
  · -- an address that has been given out in the loop
    have hno : ptr' ∉ s.supPageTable q := fun hmem => absurd (h.below hmem) (by omega)
    rw [if_pos hin]
    constructor
    · rintro ⟨hmem, heq⟩
      exact .inl ⟨(hmem.resolve_left hno).1, ptr' - s.next, by omega, by omega, (Option.some.inj heq).symm⟩
    · rintro (⟨hq, i, hi, rfl, rfl⟩ | hown)
      · exact ⟨.inr ⟨hq, hin⟩, by rw [Nat.add_sub_cancel_left]⟩
      · exact absurd hown.1 hno
  · rw [if_neg hin]
    constructor
    · rintro ⟨hmem, hx⟩
      exact .inr ⟨hmem.resolve_right fun hnew => hin hnew.2, hx⟩
    · rintro (⟨-, i, hi, rfl, -⟩ | hown)
      · exact absurd ⟨by omega, by omega⟩ hin
      · exact ⟨.inl hown.1, hown.2⟩

/-! ## Calls -/

theorem Valid.call (v : Valid s) {c : Call} (h : s.call c = some s') : Valid s' := by
  cases c with
  | act a => exact v.evolves (v.step_evolves h)
  | mmap p fd addr =>
    unfold Mem.call at h
    dsimp only at h
    split at h
    · obtain ⟨⟨id, s1⟩, hmap, rfl⟩ := map_eq_some_iff.mp h
      exact (v.mmap ‹_› hmap).1
    · cases h
  | munmap p mapid =>
    unfold Mem.call at h
    dsimp only at h
    split at h
    · exact (v.unmapPages (v.once p) (fun _ => id) h).valid
    · cases h
  | exit p =>
    unfold Mem.call at h
    dsimp only at h
    split at h
    · exact (v.processExit ‹_› h).valid
    · cases h

theorem valid_start (pages : Nat) (ram : Nat → Page) (capacity : UInt32) (device : Disk)
    (inode : Nat → File) (fds : Nat → Nat → Option Nat) :
    Valid (Mem.start pages ram capacity device inode fds) where
  inv := (remembers_start pages ram capacity device inode fds fun _ _ => Arr.const 0).inv
  formed hown := absurd hown.1 not_mem_nil
  listed hmem := absurd hmem not_mem_nil
  once _ := nodup_nil
  dead _ := rfl
  dirty hd := absurd hd Bool.false_ne_true

end

end Mem

end Pintos.VM
