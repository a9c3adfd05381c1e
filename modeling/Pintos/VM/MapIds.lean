import Pintos.VM.Calls

/-!
# What a mapping id stands for

`mmap` returns the next id of the process and gives it to the entries it makes. A call
that fails gives the id to entries too, and the next call that succeeds returns it: then
the id stands for pages of both. If no call fails that way the ids stand for the pages
of their own mappings, and these are disjoint.

The mappings in force are the calls that have succeeded, up to `munmap` of the id and the
exit of the process.
-/

namespace Pintos.VM

open Lib FileSys UserProg Function List Option

/-! ## Mappings in force -/

/-- A call of `mmap` that has returned `id`. -/
structure Mapping where
  proc : Nat
  id : Nat
  addr : UInt32
  pages : Nat
deriving DecidableEq

structure Maps where
  mem : Mem
  inForce : List Mapping

namespace Maps

def filePages (t : Maps) (p fd : Nat) : Nat :=
  (t.mem.fds p fd).elim 0 fun file => Mem.pageCount (t.mem.inode file).length

def step (t : Maps) : Call → Option Maps
  | .mmap p fd addr =>
    if t.mem.alive p then do
      let (id, s) ← t.mem.mmap p fd addr
      some ⟨s, if id = -1 then t.inForce else t.inForce ++ [⟨p, id.toNat, addr, t.filePages p fd⟩]⟩
    else none
  | .munmap p mapid => do
    let s ← t.mem.call (.munmap p mapid)
    some ⟨s, t.inForce.filter fun g => ¬ (g.proc = p ∧ g.id = mapid)⟩
  | .exit p => do
    let s ← t.mem.call (.exit p)
    some ⟨s, t.inForce.filter fun g => g.proc ≠ p⟩
  | .act a => do
    let s ← t.mem.call (.act a)
    some ⟨s, t.inForce⟩

/-- A call of `mmap` for an open file and a good address meets the condition. -/
def fitting (t : Maps) : Call → Bool
  | .mmap p fd addr => (t.mem.fds p fd).all fun file =>
    pgOfs addr != 0 || addr == 0 || t.mem.fits p file addr
  | _ => true

end Maps

structure Identified (t : Maps) : Prop where
  valid : t.mem.Valid
  below : ∀ g ∈ t.inForce, g.id < t.mem.mapId g.proc
  distinct : t.inForce.Pairwise fun g g' => g.proc = g'.proc → g.id ≠ g'.id
  pages : ∀ g ∈ t.inForce, ∀ va, (∃ ptr e, t.mem.Owns g.proc ptr e ∧ e.mapId = some g.id ∧
    e.userVaddr = va) ↔ ∃ i < g.pages, Mem.pageAddr g.addr i = va
  only : ∀ {p ptr e m}, t.mem.Owns p ptr e → e.mapId = some m →
    ptr ∈ t.mem.listMmap p ∧ ∃ g ∈ t.inForce, g.proc = p ∧ g.id = m

section
variable {t : Maps} {s' : Mem} {p : Nat}

section
variable (k : Identified t)
include k

theorem Identified.evolves (ev : t.mem.Evolves s') : Identified ⟨s', t.inForce⟩ where
  valid := k.valid.evolves ev
  below g hg := by
    show g.id < s'.mapId g.proc
    rw [ev.mapId]
    exact k.below g hg
  distinct := k.distinct
  pages g hg va := by
    rw [← k.pages g hg va]
    constructor
    · rintro ⟨ptr, e, hown, hid, hva⟩
      rcases ev.back hown with ⟨x, hx, hsame⟩ | ⟨hnone, -⟩
      · exact ⟨ptr, x, hx, hsame.mapId.symm.trans hid, hsame.vaddr.symm.trans hva⟩
      · rw [hnone] at hid
        cases hid
    · rintro ⟨ptr, e, hown, hid, hva⟩
      obtain ⟨x, hx, hsame⟩ := ev.old hown
      exact ⟨ptr, x, hx, hsame.mapId.trans hid, hsame.vaddr.trans hva⟩
  only hown hid := by
    rcases ev.back hown with ⟨x, hx, hsame⟩ | ⟨hnone, -⟩
    · obtain ⟨hmem, hg⟩ := k.only hx (hsame.mapId.symm.trans hid)
      exact ⟨ev.listMmap ▸ hmem, hg⟩
    · rw [hnone] at hid
      cases hid

theorem Identified.unmaps {mapid : Nat} (u : t.mem.Unmaps s' p mapid (t.mem.listMmap p)) :
    Identified ⟨s', t.inForce.filter fun g => ¬ (g.proc = p ∧ g.id = mapid)⟩ := by
  -- the entries of the other mappings stay
  have hkeep : ∀ {q ptr e}, t.mem.Owns q ptr e → ¬ (q = p ∧ e.mapId = some mapid) → s'.Owns q ptr e := by
    intro q ptr e hown hne
    refine u.owns.mpr ⟨hown, fun hgone => hne ⟨?_, hgone.2⟩⟩
    obtain ⟨x, hx⟩ := k.valid.listed hgone.1
    exact k.valid.inv.owner hown.1 hx.1
  refine ⟨u.valid, fun g hg => ?_, k.distinct.filter _, fun g hg va => ?_, fun {q ptr e m} hown hid => ?_⟩
  · show g.id < s'.mapId g.proc
    rw [u.mapId]
    exact k.below g (mem_filter.mp hg).1
  · obtain ⟨hg, hother⟩ := mem_filter.mp hg
    rw [decide_eq_true_eq] at hother
    rw [← k.pages g hg va]
    constructor
    · rintro ⟨ptr, e, hown, hrest⟩
      exact ⟨ptr, e, (u.owns.mp hown).1, hrest⟩
    · rintro ⟨ptr, e, hown, hid, hva⟩
      refine ⟨ptr, e, hkeep hown fun hgone => hother ⟨hgone.1, ?_⟩, hid, hva⟩
      exact Option.some.inj (hid.symm.trans hgone.2)
  · obtain ⟨hold, hkept⟩ := u.owns.mp hown
    obtain ⟨hmem, g, hg, rfl, rfl⟩ := k.only hold hid
    refine ⟨u.list hown hmem, g, mem_filter.mpr ⟨hg, ?_⟩, rfl, rfl⟩
    rw [decide_eq_true_eq]
    rintro ⟨rfl, rfl⟩
    exact hkept ⟨hmem, hid⟩

theorem Identified.exits (x : t.mem.Exits s' p) :
    Identified ⟨s', t.inForce.filter fun g => g.proc ≠ p⟩ := by
  refine ⟨x.valid, fun g hg => ?_, k.distinct.filter _, fun g hg va => ?_, fun {q ptr e m} hown hid => ?_⟩
  · show g.id < s'.mapId g.proc
    rw [x.mapId]
    exact k.below g (mem_filter.mp hg).1
  · obtain ⟨hg, hother⟩ := mem_filter.mp hg
    rw [decide_eq_true_eq] at hother
    rw [← k.pages g hg va]
    simp only [x.owns, hother, ne_eq, not_false_eq_true, and_true]
  · obtain ⟨hold, hq⟩ := x.owns.mp hown
    obtain ⟨hmem, g, hg, rfl, rfl⟩ := k.only hold hid
    refine ⟨show ptr ∈ s'.listMmap g.proc from x.listMmap ▸ hmem, g,
      mem_filter.mpr ⟨hg, ?_⟩, rfl, rfl⟩
    rw [decide_eq_true_eq]
    exact hq

theorem Identified.maps (halive : t.mem.alive p = true) {fd : Nat} {addr : UInt32} {id : Int}
    (hmap : t.mem.mmap p fd addr = some (id, s')) (hid : id ≠ -1) :
    Identified ⟨s', t.inForce ++ [⟨p, id.toNat, addr, t.filePages p fd⟩]⟩ := by
  have hvalid := (k.valid.mmap halive hmap).1
  obtain ⟨file, hfile, -, hlen, rfl, hpages, rfl⟩ := Mem.mmap_success hmap hid
  have hn : t.filePages p fd = Mem.pageCount (t.mem.inode file).length := by
    rw [Maps.filePages, hfile, Option.elim_some]
  have hreopen : (t.mem.fileReopen file).Inv := (k.valid.reset _ t.mem.mapId).inv
  -- the entries: the new ones with the new id, and the old ones
  have howns : ∀ {q ptr x}, ((t.mem.fileReopen file).mappedPages p file (Mem.pageCount (t.mem.inode file).length)
      addr (t.mem.inode file).length 0).Owns q ptr x ↔
      q = p ∧ (∃ i < t.filePages p fd, ptr = t.mem.next + i ∧
        x = (t.mem.fileReopen file).pageSpte p file addr (t.mem.inode file).length 0 i) ∨
      t.mem.Owns q ptr x := by
    rw [hn]
    exact hreopen.mappedPages_owns
  have hnew : ∀ {q ptr e}, t.mem.Owns q ptr e → q = p → e.mapId ≠ some (t.mem.mapId p) := by
    rintro q ptr e hown rfl heq
    obtain ⟨-, g, hg, rfl, hgid⟩ := k.only hown heq
    exact absurd (k.below g hg) (by omega)
  refine ⟨hvalid, fun g hg => ?_, ?_, fun g hg va => ?_, fun {q ptr e m} hown hid => ?_⟩
  · show g.id < update t.mem.mapId p (t.mem.mapId p + 1) g.proc
    rcases mem_append.mp hg with hg | hg
    · have hlt := k.below g hg
      by_cases hq : g.proc = p
      · rw [hq, update_self]
        rw [hq] at hlt
        omega
      · rw [update_of_ne hq]
        exact hlt
    · rw [mem_singleton.mp hg, update_self]
      exact Nat.lt_succ_self _
  · refine pairwise_append.mpr ⟨k.distinct, pairwise_singleton _ _, ?_⟩
    intro g hg g' hg' hproc heq
    rw [mem_singleton.mp hg'] at hproc heq
    replace hproc : g.proc = p := hproc
    replace heq : g.id = t.mem.mapId p := heq
    have hlt := k.below g hg
    rw [hproc] at hlt
    omega
  · rcases mem_append.mp hg with hg | hg
    · -- an old mapping: the new entries have another id
      rw [← k.pages g hg va]
      constructor
      · rintro ⟨ptr, e, hown, hid, hva⟩
        rcases howns.mp hown with ⟨hq, i, -, -, rfl⟩ | hold
        · have heq : t.mem.mapId p = g.id := Option.some.inj hid
          have hlt := k.below g hg
          rw [hq] at hlt
          omega
        · exact ⟨ptr, e, hold, hid, hva⟩
      · rintro ⟨ptr, e, hown, hrest⟩
        exact ⟨ptr, e, howns.mpr (.inr hown), hrest⟩
    · rw [mem_singleton.mp hg]
      constructor
      · rintro ⟨ptr, e, hown, hid, hva⟩
        rcases howns.mp hown with ⟨-, i, hi, -, rfl⟩ | hold
        · exact ⟨i, hi, hva⟩
        · exact absurd hid (hnew hold rfl)
      · rintro ⟨i, hi, hva⟩
        exact ⟨t.mem.next + i, _, howns.mpr (.inl ⟨rfl, i, hi, rfl, rfl⟩), rfl, hva⟩
  · show ptr ∈ update t.mem.listMmap p _ q ∧ _
    rcases howns.mp hown with ⟨rfl, i, hi, rfl, rfl⟩ | hold
    · refine ⟨?_, _, mem_append_right _ (mem_singleton_self _), rfl, Option.some.inj hid⟩
      rw [update_self]
      exact mem_append_right _ (mem_range'_1.mpr ⟨Nat.le_add_right .., by
        show t.mem.next + i < t.mem.next + _
        omega⟩)
    · obtain ⟨hmem, g, hg, hgq, hgm⟩ := k.only hold hid
      refine ⟨?_, g, mem_append_left _ hg, hgq, hgm⟩
      by_cases hq : q = p
      · rw [hq, update_self]
        exact mem_append_left _ (hq ▸ hmem)
      · rw [update_of_ne hq]
        exact hmem

theorem Identified.fails {fd : Nat} {addr : UInt32} (hfit : t.fitting (.mmap p fd addr) = true)
    (hmap : t.mem.mmap p fd addr = some (-1, s')) : s' = t.mem := by
  cases hfile : t.mem.fds p fd with
  | none =>
    simp only [Mem.mmap, hfile] at hmap
    cases hmap
    rfl
  | some file =>
    by_cases haddr : pgOfs addr ≠ 0 ∨ addr = 0
    · simp only [Mem.mmap, hfile, if_pos haddr] at hmap
      cases hmap
      rfl
    · obtain ⟨hofs, hzero⟩ := not_or.mp haddr
      have hfits : t.mem.fits p file addr = true := by
        simpa [Maps.fitting, hfile, not_not.mp hofs, hzero] using hfit
      exact absurd hmap ((k.valid.below p).mmap_ne hfile (not_not.mp hofs) hzero hfits s')

theorem Identified.step {c : Call} {t' : Maps} (hfit : t.fitting c = true)
    (h : t.step c = some t') : Identified t' := by
  cases c with
  | act a =>
    obtain ⟨s, hcall, h⟩ := bind_eq_some_iff.mp h
    cases h
    exact k.evolves (k.valid.step_evolves hcall)
  | mmap p fd addr =>
    unfold Maps.step at h
    dsimp only at h
    split at h
    · next halive =>
      obtain ⟨⟨id, s⟩, hmap, h⟩ := bind_eq_some_iff.mp h
      cases h
      dsimp only
      by_cases hid : id = -1
      · subst hid
        rw [if_pos rfl, k.fails hfit hmap]
        exact k
      · rw [if_neg hid]
        exact k.maps halive hmap hid
    · cases h
  | munmap p mapid =>
    obtain ⟨s, hcall, h⟩ := bind_eq_some_iff.mp h
    cases h
    unfold Mem.call at hcall
    dsimp only at hcall
    split at hcall
    · exact k.unmaps (k.valid.unmapPages (k.valid.once p) (fun _ => id) hcall)
    · cases hcall
  | exit p =>
    obtain ⟨s, hcall, h⟩ := bind_eq_some_iff.mp h
    cases h
    unfold Mem.call at hcall
    dsimp only at hcall
    split at hcall
    · exact k.exits (k.valid.processExit ‹_› hcall)
    · cases hcall

end

theorem Identified.run {t0 : Maps} {cs : List Call} (hrun : Run Maps.step (fun t c => t.fitting c = true) t0 cs t)
    (k : Identified t0) : Identified t :=
  hrun.invariant (fun _ _ _ k hfit hstep => Identified.step k hfit hstep) k

end

end Pintos.VM
