import Mathlib.Data.Set.Card
import Pintos.VM.Calls

/-!
# The swap slots of pages that are gone

A slot is taken when a page is evicted and given back when the page is brought in. A
page that is given up while it is in a slot takes the slot with it: `free_page` does
nothing about it, so after `munmap` of a mapping or `process_exit` the slot stays in use
and no entry names it.
-/

namespace Pintos.VM

open Lib FileSys UserProg List

namespace Mem

/-! ## Slots and entries -/

def swappedEntries (s : Mem) : Set (Nat × Nat) :=
  {x | s.alive x.1 = true ∧ ∃ e, s.Owns x.1 x.2 e ∧ e.isSwapped = true}

/-- The slots in use and the swapped entries of the live processes correspond. -/
structure SlotsOwned (s : Mem) : Prop where
  count : s.swappedEntries.ncard = s.swap.table.count true
  inSlot : ∀ {p ptr e}, s.Owns p ptr e → e.isSwapped = true → s.InSlot e
  distinct : ∀ {p q ptr ptr' e e'}, s.Owns p ptr e → s.Owns q ptr' e' → e.isSwapped = true →
    e'.isSwapped = true → e.swapNum = e'.swapNum → (p, ptr) = (q, ptr')
  used : ∀ {idx : Nat}, s.swap.table[idx]? = some true → ∃ p ptr e, s.alive p = true ∧
    s.Owns p ptr e ∧ e.isSwapped = true ∧ e.swapNum = Swap.sectorOf idx

/-- The call gives up no page that is in a slot. -/
def spares (s : Mem) : Call → Bool
  | .munmap p mapid => (s.listMmap p).all fun ptr => (s.heap ptr).all fun e =>
    e.mapId != some mapid || !e.isSwapped
  | .exit p => (s.supPageTable p).all fun ptr => (s.heap ptr).all fun e => !e.isSwapped
  | _ => true

theorem ncard_bits (b : List Bool) : {i : Nat | b[i]? = some true}.ncard = b.count true := by
  induction b using List.reverseRecOn with
  | nil => simp
  | append_singleton b x ih =>
    have hfin : {i : Nat | b[i]? = some true}.Finite :=
      (Set.finite_lt_nat b.length).subset fun i hi => (List.getElem?_eq_some_iff.mp hi).1
    have hlast : b.length ∉ {i : Nat | b[i]? = some true} := fun hi =>
      absurd (List.getElem?_eq_some_iff.mp hi).1 (lt_irrefl _)
    have hother : ∀ {i : Nat}, i ≠ b.length → ((b ++ [x])[i]? = some true ↔ b[i]? = some true) := by
      intro i hi
      rcases lt_or_gt_of_ne hi with hlt | hgt
      · rw [List.getElem?_append_left hlt]
      · rw [List.getElem?_eq_none (by simp; omega), List.getElem?_eq_none (by omega)]
    cases x with
    | true =>
      have hset : {i : Nat | (b ++ [true])[i]? = some true} = insert b.length {i : Nat | b[i]? = some true} := by
        ext i
        by_cases hi : i = b.length
        · simp [hi]
        · simpa [hi] using hother hi
      rw [hset, Set.ncard_insert_of_notMem hlast hfin, ih]
      simp
    | false =>
      have hset : {i : Nat | (b ++ [false])[i]? = some true} = {i : Nat | b[i]? = some true} := by
        ext i
        by_cases hi : i = b.length
        · simp [hi]
        · exact hother hi
      rw [hset, ih]
      simp

section
variable {s s' : Mem} {p ptr : Nat} {e : Spte}

theorem Valid.alive (v : Valid s) (hown : s.Owns p ptr e) : s.alive p = true := by
  by_contra hdead
  have hnil := v.dead (Bool.eq_false_of_not_eq_true hdead)
  have hmem := hown.1
  rw [hnil] at hmem
  cases hmem

/-- **Without a leak** the slots and the entries correspond. -/
theorem Valid.slotsOwned (v : Valid s) (hn : s.NoLeak) : SlotsOwned s := by
  have hdistinct : ∀ {p q ptr ptr' e e'}, s.Owns p ptr e → s.Owns q ptr' e' → e.isSwapped = true →
      e'.isSwapped = true → e.swapNum = e'.swapNum → (p, ptr) = (q, ptr') := by
    intro p q ptr ptr' e e' hown hown' hsw hsw' hnum
    cases v.inv.slots hown hown' hsw hsw' hnum
    rw [v.inv.owner hown.1 hown'.1]
  refine ⟨?_, fun hown hsw => (v.inv.swapped hown hsw).2.2, hdistinct, fun hused => ?_⟩
  · rw [← ncard_bits]
    -- an entry goes to its slot
    have hbij : Set.BijOn (fun x : Nat × Nat => Swap.slotOf ((s.heap x.2).elim 0 Spte.swapNum))
        s.swappedEntries {i : Nat | s.swap.table[i]? = some true} := by
      refine ⟨?_, ?_, ?_⟩
      · rintro ⟨q, ptr'⟩ ⟨-, x, hx, hsw⟩
        obtain ⟨-, -, idx, hnum, hidx⟩ := v.inv.swapped hx hsw
        show s.swap.table[Swap.slotOf ((s.heap ptr').elim 0 Spte.swapNum)]? = some true
        rw [hx.2, Option.elim_some, hnum, slotOf_sectorOf hidx]
        exact hidx
      · rintro ⟨q, ptr'⟩ ⟨-, x, hx, hsw⟩ ⟨r, ptr''⟩ ⟨-, y, hy, hsw'⟩ heq
        obtain ⟨-, -, idx, hnum, hidx⟩ := v.inv.swapped hx hsw
        obtain ⟨-, -, idx', hnum', hidx'⟩ := v.inv.swapped hy hsw'
        replace heq : Swap.slotOf ((s.heap ptr').elim 0 Spte.swapNum) =
          Swap.slotOf ((s.heap ptr'').elim 0 Spte.swapNum) := heq
        rw [hx.2, hy.2, Option.elim_some, Option.elim_some, hnum, hnum', slotOf_sectorOf hidx,
          slotOf_sectorOf hidx'] at heq
        exact hdistinct hx hy hsw hsw' (by rw [hnum, hnum', heq])
      · intro idx hidx
        obtain ⟨q, ptr', x, hx, hsw, hnum⟩ := hn hidx
        refine ⟨(q, ptr'), ⟨v.alive hx, x, hx, hsw⟩, ?_⟩
        show Swap.slotOf ((s.heap ptr').elim 0 Spte.swapNum) = idx
        rw [hx.2, Option.elim_some, hnum, slotOf_sectorOf hidx]
    exact hbij.ncard_eq
  · obtain ⟨q, ptr', x, hx, hrest⟩ := hn hused
    exact ⟨q, ptr', x, v.alive hx, hx, hrest⟩

theorem SlotsOwned.noLeak (h : SlotsOwned s) : s.NoLeak := by
  intro idx hused
  obtain ⟨q, ptr', x, -, hx, hrest⟩ := h.used hused
  exact ⟨q, ptr', x, hx, hrest⟩

/-- The pages of `gone` have been given up. -/
structure Gives (s s' : Mem) (gone : Nat → Nat → Spte → Prop) : Prop where
  swap : s'.swap = s.swap
  owns : ∀ {q ptr x}, s'.Owns q ptr x ↔ s.Owns q ptr x ∧ ¬ gone q ptr x

/-- **Pages that are given up leak no slot** if and only if none of them is in one. -/
theorem Gives.noLeak_iff {gone : Nat → Nat → Spte → Prop} (g : Gives s s' gone) (h : Inv s) (hn : s.NoLeak) :
    s'.NoLeak ↔ ∀ {q ptr x}, s.Owns q ptr x → gone q ptr x → x.isSwapped = false := by
  constructor
  · intro hn' q ptr' x hx hgone
    by_contra hsw
    replace hsw : x.isSwapped = true := Bool.eq_true_of_not_eq_false hsw
    -- the slot is still in use, and no other entry names it
    obtain ⟨-, -, idx, hnum, hidx⟩ := h.swapped hx hsw
    have hused : s'.swap.table[idx]? = some true := by
      rw [g.swap]
      exact hidx
    obtain ⟨r, ptr'', y, hy, hsw', hnum'⟩ := hn' hused
    obtain ⟨hy, hkept⟩ := g.owns.mp hy
    cases h.slots hx hy hsw hsw' (hnum.trans hnum'.symm)
    cases h.owner hx.1 hy.1
    cases hx.entry_eq hy
    exact hkept hgone
  · intro hnone idx hused
    rw [g.swap] at hused
    obtain ⟨q, ptr', x, hx, hsw, hnum⟩ := hn hused
    refine ⟨q, ptr', x, g.owns.mpr ⟨hx, fun hgone => ?_⟩, hsw, hnum⟩
    rw [hnone hx hgone] at hsw
    cases hsw

/-! ## Calls -/

theorem spares_munmap {mapid : Nat} : s.spares (.munmap p mapid) = true ↔
    ∀ ptr ∈ s.listMmap p, ∀ e, s.heap ptr = some e → e.mapId = some mapid → e.isSwapped = false := by
  simp only [spares, all_eq_true, Option.all_eq_true, Bool.or_eq_true, bne_iff_ne, Bool.not_eq_true',
    ne_eq, ← imp_iff_not_or]

theorem spares_exit : s.spares (.exit p) = true ↔
    ∀ ptr ∈ s.supPageTable p, ∀ e, s.heap ptr = some e → e.isSwapped = false := by
  simp only [spares, all_eq_true, Option.all_eq_true, Bool.not_eq_true']

theorem Unmaps.gives {mapid : Nat} {l : List Nat} (u : Unmaps s s' p mapid l) :
    Gives s s' fun _ ptr x => ptr ∈ l ∧ x.mapId = some mapid :=
  ⟨u.swap, u.owns⟩

theorem Exits.gives (x : Exits s s' p) : Gives s s' fun q _ _ => q = p :=
  ⟨x.swap, x.owns⟩

/-- **A call leaks no slot** if and only if it gives up no page that is in one. -/
theorem Valid.call_noLeak_iff (v : Valid s) (hn : s.NoLeak) {c : Call} (h : s.call c = some s') :
    s'.NoLeak ↔ s.spares c = true := by
  cases c with
  | act a => exact ⟨fun _ => rfl, fun _ => (v.step_evolves h).noLeak hn⟩
  | mmap p fd addr =>
    unfold Mem.call at h
    dsimp only at h
    split at h
    · obtain ⟨⟨id, s1⟩, hmap, rfl⟩ := Option.map_eq_some_iff.mp h
      exact ⟨fun _ => rfl, fun _ => (v.mmap ‹_› hmap).2 hn⟩
    · cases h
  | munmap p mapid =>
    unfold Mem.call at h
    dsimp only at h
    split at h
    · have u := v.unmapPages (v.once p) (fun _ => id) h
      rw [u.gives.noLeak_iff v.inv hn, spares_munmap]
      constructor
      · intro hnone ptr hmem e he hid
        obtain ⟨x, hx⟩ := v.listed hmem
        cases Option.some.inj (he.symm.trans hx.2)
        exact hnone hx ⟨hmem, hid⟩
      · intro hspares q ptr x hx hgone
        exact hspares ptr hgone.1 x hx.2 hgone.2
    · cases h
  | exit p =>
    unfold Mem.call at h
    dsimp only at h
    split at h
    · rw [(v.processExit ‹_› h).gives.noLeak_iff v.inv hn, spares_exit]
      constructor
      · intro hnone ptr hmem e he
        exact hnone ⟨hmem, he⟩ rfl
      · rintro hspares q ptr x hx rfl
        exact hspares ptr hx.1 x hx.2
    · cases h

theorem Valid.run_noLeak {s0 : Mem} {cs : List Call} (hrun : Run Mem.call (fun s c => s.spares c = true) s0 cs s) (v : Valid s0)
    (hn : s0.NoLeak) : Valid s ∧ s.NoLeak := by
  induction hrun with
  | nil => exact ⟨v, hn⟩
  | snoc _ hok hcall ih => exact ⟨ih.1.call hcall, (ih.1.call_noLeak_iff ih.2 hcall).mpr hok⟩

theorem noLeak_start (pages : Nat) (ram : Nat → Page) (capacity : UInt32) (device : Disk)
    (inode : Nat → File) (fds : Nat → Nat → Option Nat) :
    (Mem.start pages ram capacity device inode fds).NoLeak := by
  intro idx hused
  replace hused : (List.replicate (Swap.slotCount capacity) false)[idx]? = some true := hused
  rw [getElem?_replicate] at hused
  split at hused <;> cases hused

end

end Mem

/-- **No slot is leaked** in a run whose `munmap` and `process_exit` calls give up no page
that is in a slot: the slots in use are those that the swapped entries of the live
processes name, one for each, and a process that has exited has no entry. A call that
gives up such a page leaves its slot in use. -/
theorem call_leaks_no_slot_iff {pages : Nat} {ram : Nat → Page} {capacity : UInt32} {device : Disk}
    {inode : Nat → File} {fds : Nat → Nat → Option Nat} {cs : List Call} {s : Mem}
    (hrun : Run Mem.call (fun s c => s.spares c = true)
      (Mem.start pages ram capacity device inode fds) cs s) :
    s.SlotsOwned ∧ (∀ p, s.alive p = false → ∀ ptr e, ¬ s.Owns p ptr e) ∧
      ∀ c s', s.call c = some s' → (s'.SlotsOwned ↔ s.spares c = true) := by
  obtain ⟨v, hn⟩ := Mem.Valid.run_noLeak hrun (Mem.valid_start pages ram capacity device inode fds)
    (Mem.noLeak_start pages ram capacity device inode fds)
  refine ⟨v.slotsOwned hn, fun p hdead ptr e hown => ?_, fun c s' hcall => ?_⟩
  · rw [v.alive hown] at hdead
    cases hdead
  · rw [← v.call_noLeak_iff hn hcall]
    exact ⟨fun h => h.noLeak, fun hn' => (v.call hcall).slotsOwned hn'⟩

/-- A pool of one page and a swap device of two slots. -/
def onePage : Mem :=
  Mem.start 1 (fun _ => Arr.const 0) 16 (fun _ => Arr.const 0) (fun _ => ⟨1, fun _ => 65, 1, 0⟩)
    fun _ _ => none

theorem onePage_evicted : ∃ s s', Run Mem.call (fun s c => s.spares c = true) onePage
      [.act (.stack 0), .act (.stack 1)] s ∧
    s.call (.exit 0) = some s' ∧ s'.alive 0 = false ∧ s'.swap.table[0]? = some true ∧
    s.spares (.exit 0) = false := by
  simp only [exists_and_left]
  decide +kernel

/-- One page has been swapped out, and one slot is in use. -/
theorem call_leaks_no_slot_iff_two_processes : ∃ s, Run Mem.call (fun s c => s.spares c = true) onePage
    [.act (.stack 0), .act (.stack 1)] s ∧ s.SlotsOwned := by
  obtain ⟨s, -, hrun, -⟩ := onePage_evicted
  exact ⟨s, hrun, (call_leaks_no_slot_iff hrun).1⟩

/-- The first process exits while its page is in a slot, and the slot stays in use. -/
theorem process_exit_leaks_slot : ∃ s s', Run Mem.call (fun s c => s.spares c = true) onePage
      [.act (.stack 0), .act (.stack 1)] s ∧
    s.call (.exit 0) = some s' ∧ s'.alive 0 = false ∧ s'.swap.table[0]? = some true ∧ ¬ s'.SlotsOwned := by
  obtain ⟨s, s', hrun, hcall, hdead, hslot, hspares⟩ := onePage_evicted
  obtain ⟨v, hn⟩ := Mem.Valid.run_noLeak hrun (Mem.valid_start _ _ _ _ _ _) (Mem.noLeak_start _ _ _ _ _ _)
  refine ⟨s, s', hrun, hcall, hdead, hslot, fun howned => ?_⟩
  rw [(v.call_noLeak_iff hn hcall).mp howned.noLeak] at hspares
  cases hspares

/-! ## Frames -/

/-- Page `a` of thread `p` is present, in frame `f`. -/
def Mem.Maps (s : Mem) (p : Nat) (a : UInt32) (f : Nat) : Prop :=
  (s.pagedir p a).present = true ∧ (s.pagedir p a).frame = f

/-- **Isolation.** In every run no two pages share a frame, and a page of the pool is in use
exactly if a live process has it mapped. -/
theorem pages_share_nothing {pages : Nat} {ram : Nat → Page} {capacity : UInt32} {device : Disk}
    {inode : Nat → File} {fds : Nat → Nat → Option Nat} {cs : List Call} {s : Mem}
    (hrun : Run Mem.call (fun _ _ => True) (Mem.start pages ram capacity device inode fds) cs s) :
    (∀ p q a b f, s.Maps p a f → s.Maps q b f → p = q ∧ a = b) ∧
    ∀ f, s.usedMap[f]? = some true ↔ ∃ p a, s.alive p = true ∧ s.Maps p a f := by
  have v := hrun.invariant (fun _ _ _ v _ hc => v.call hc) (Mem.valid_start ..)
  have hframe : ∀ {p a f}, s.Maps p a f →
      ∃ i e, s.Owns p i e ∧ e.userVaddr = a ∧ ⟨f, p, i⟩ ∈ s.frameTable := by
    rintro p a f ⟨hp, rfl⟩
    obtain ⟨i, e, hown, rfl, hl⟩ := v.inv.present hp
    exact ⟨i, e, hown, rfl, (v.inv.loaded hown hl).1⟩
  refine ⟨fun p q a b f ha hb => ?_, fun f => ⟨fun hf => ?_, fun ⟨p, a, _, hp⟩ => ?_⟩⟩
  · obtain ⟨i, e, hi, rfl, hfi⟩ := hframe ha
    obtain ⟨j, e', hj, rfl, hfj⟩ := hframe hb
    cases v.inv.spte_eq hfi hfj rfl
    exact ⟨rfl, by rw [hi.entry_eq hj]⟩
  · obtain ⟨fte, hmem, rfl⟩ := v.inv.pooled hf
    obtain ⟨e, hown, -, hp⟩ := v.inv.resident hmem
    exact ⟨_, _, v.alive hown, hp⟩
  · obtain ⟨_, _, -, -, hf⟩ := hframe hp
    exact v.inv.used hf

/-- The second stack takes the frame of the first. -/
theorem pages_share_nothing_two_stacks :
    ∃ s, Run Mem.call (fun _ _ => True) onePage [.act (.stack 0), .act (.stack 1)] s ∧
      s.Maps 1 0xbffff000 0 ∧ ∀ a, ¬ s.Maps 0 a 0 := by
  refine Run.exists_guarded (fun s => (s.pagedir 1 0xbffff000).present = true ∧
    (s.pagedir 1 0xbffff000).frame = 0) (by decide +kernel) fun s hrun h1 => ⟨h1, fun a h0 => ?_⟩
  cases ((pages_share_nothing hrun).1 _ _ _ _ 0 h0 h1).1

end Pintos.VM
