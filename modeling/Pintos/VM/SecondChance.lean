import Pintos.FileSys.SecondChance
import Pintos.VM.Slots

/-!
# The victims of the two second-chance scans

`evict_frame` differs from `evict_cache` in that it pins nothing: the second of its passes finds
all the accessed bits that it looks at cleared, so it stops at the first frame of the table.
-/

namespace Pintos.VM

open Lib FileSys UserProg Function List

namespace Mem

def pageOf (s : Mem) (fte : Fte) : Option (Nat × UInt32) :=
  (s.heap fte.spte).map fun e => (fte.owner, e.userVaddr)

/-- The frames of `l` are in use, for pages that differ, and none of them is mapped to a file. -/
structure Scannable (s : Mem) (l : List Fte) : Prop where
  entry : ∀ {fte}, fte ∈ l → ∃ e, s.heap fte.spte = some e ∧ e.fileType ≠ .mmap
  pages : (l.map s.pageOf).Nodup
  used : ∀ {fte}, fte ∈ l → s.usedMap[fte.frame]? = some true

def framesPassed (s : Mem) : List Fte := s.frameTable.takeWhile s.accessedBit

def cleared (s : Mem) (l : List Fte) : Mem :=
  { s with pagedir := fun p a => if some (p, a) ∈ l.map s.pageOf then
    { s.pagedir p a with accessed := false } else s.pagedir p a }

section
variable {s s' : Mem} {l : List Fte} {fte fte' : Fte} {e : Spte}

theorem pageOf_of_heap (he : s.heap fte.spte = some e) : s.pageOf fte = some (fte.owner, e.userVaddr) := by
  rw [pageOf, he, Option.map_some]

theorem accessedBit_of_heap (he : s.heap fte.spte = some e) :
    s.accessedBit fte = (s.pagedir fte.owner e.userVaddr).accessed := by
  rw [accessedBit, he, Option.any_some]
  rfl

theorem cleared_nil (s : Mem) : s.cleared [] = s := by
  simp only [cleared, map_nil, not_mem_nil, if_false]

theorem cleared_cleared (s : Mem) (l l' : List Fte) : (s.cleared l).cleared l' = s.cleared (l ++ l') := by
  have hpages : (s.cleared l).pageOf = s.pageOf := rfl
  rw [cleared, hpages]
  refine congrArg (fun pd => { s with pagedir := pd }) (funext fun p => funext fun a => ?_)
  simp only [cleared, map_append, mem_append]
  by_cases h : some (p, a) ∈ l.map s.pageOf <;> by_cases h' : some (p, a) ∈ l'.map s.pageOf <;>
    simp only [h, h', if_true, if_false, or_true, or_false]

theorem setAccessed_eq_cleared (he : s.heap fte.spte = some e) :
    s.pagedirSetAccessed fte.owner e.userVaddr false = s.cleared [fte] := by
  refine congrArg (fun pd => { s with pagedir := pd }) (funext fun p => funext fun a => ?_)
  have hpage : some (p, a) ∈ [fte].map s.pageOf ↔ p = fte.owner ∧ a = e.userVaddr := by
    rw [map_singleton, mem_singleton, pageOf_of_heap he, Option.some.injEq, Prod.mk.injEq]
  by_cases hpa : p = fte.owner ∧ a = e.userVaddr
  · rw [if_pos (hpage.mpr hpa), hpa.1, hpa.2, update_self, update_self]
  · rw [if_neg (mt hpage.mp hpa)]
    exact setPte_ne s _ fun hp ha => hpa ⟨hp, ha⟩

/-- The bit of a page that is not in `l` stays as it is. -/
theorem accessedBit_cleared (hne : s.pageOf fte ∉ l.map s.pageOf) :
    (s.cleared l).accessedBit fte = s.accessedBit fte := by
  show (s.heap fte.spte).any _ = (s.heap fte.spte).any _
  cases he : s.heap fte.spte with
  | none => rfl
  | some e =>
    rw [pageOf_of_heap he] at hne
    rw [Option.any_some, Option.any_some]
    exact congrArg Pte.accessed (if_neg hne)

theorem accessedBit_cleared_mem (hmem : fte ∈ l) : (s.cleared l).accessedBit fte = false := by
  show (s.heap fte.spte).any _ = false
  cases he : s.heap fte.spte with
  | none => rfl
  | some e =>
    rw [Option.any_some]
    refine congrArg Pte.accessed (if_pos ?_)
    rw [← pageOf_of_heap he]
    exact mem_map_of_mem hmem

theorem Scannable.cleared (h : Scannable s l) (l' : List Fte) : Scannable (s.cleared l') l :=
  { h with }

theorem Scannable.tail (h : Scannable s (fte :: l)) : Scannable s l :=
  ⟨fun hmem => h.entry (mem_cons_of_mem _ hmem), h.pages.of_cons,
    fun hmem => h.used (mem_cons_of_mem _ hmem)⟩

/-- The scan of the rest goes on as if the bit had not been cleared. -/
theorem Scannable.accessedBit_tail (h : Scannable s (fte :: l)) (hmem : fte' ∈ l) :
    (s.cleared [fte]).accessedBit fte' = s.accessedBit fte' := by
  refine accessedBit_cleared fun hpage => ?_
  rw [map_singleton, mem_singleton] at hpage
  exact (nodup_cons.mp h.pages).1 (hpage ▸ mem_map_of_mem hmem)

def evictAt (s : Mem) (fte : Fte) : Option (Bool × Mem) := do
  let e ← s.heap fte.spte
  let s ← s.evict fte e
  some (true, s)

/-- **A pass** evicts the first frame whose page has not been accessed. The bits of the frames
that are still to come are those at the start of the pass. -/
theorem Scannable.evictPass_eq (h : Scannable s l) (first : Bool) (bit : Fte → Bool)
    (hbit : ∀ fte ∈ l, s.accessedBit fte = bit fte) :
    s.evictPass first l = match l.find? fun fte => !bit fte with
      | some fte => (s.cleared (l.takeWhile bit)).evictAt fte
      | none => some (false, s.cleared l) := by
  induction l generalizing s with
  | nil => rw [cleared_nil]; rfl
  | cons fte rest ih =>
    obtain ⟨e, he, htype⟩ := h.entry mem_cons_self
    have hacc : s.pagedirIsAccessed fte.owner e.userVaddr = bit fte :=
      (accessedBit_of_heap he).symm.trans (hbit fte mem_cons_self)
    rw [evictPass, he, some_bind, hacc]
    cases hb : bit fte with
    | true =>
      -- none of the frames in the rest notices that this bit is cleared
      have hrest : ∀ fte' ∈ rest, (s.cleared [fte]).accessedBit fte' = bit fte' :=
        fun fte' hmem => (h.accessedBit_tail hmem).trans (hbit fte' (mem_cons_of_mem _ hmem))
      rw [if_pos rfl, setAccessed_eq_cleared he, ih (h.tail.cleared [fte]) hrest,
        find?_cons_of_neg (by rw [hb]; decide), takeWhile_cons_of_pos hb,
        cleared_cleared, cleared_cleared]
      rfl
    | false =>
      rw [if_neg (by decide), if_neg fun hm => htype hm.2,
        find?_cons_of_pos (by rw [hb]; rfl),
        takeWhile_cons_of_neg (by rw [hb]; decide), cleared_nil]
      show _ = (s.heap fte.spte).bind _
      rw [he]
      rfl

theorem framesPassed_of_none (h : s.frameTable.find? (fun fte => !s.accessedBit fte) = none) :
    s.framesPassed = s.frameTable := by
  refine takeWhile_eq_self_iff.mpr fun fte hmem => ?_
  have hbit := find?_eq_none.mp h fte hmem
  rwa [Bool.not_eq_true, Bool.not_eq_false'] at hbit

theorem evictAt_of_evict (he : s.heap fte.spte = some e) (hev : s.evict fte e = some s') :
    s.evictAt fte = some (true, s') := by
  rw [evictAt, he, some_bind, hev]
  rfl

/-- **`evict_frame`** evicts the victim, with the bits of the frames passed over cleared. -/
theorem Scannable.evictFrame_eq (h : Scannable s s.frameTable) (hvict : s.victim = some fte)
    (he : s.heap fte.spte = some e) (hev : (s.cleared s.framesPassed).evict fte e = some s') :
    s.evictFrame = some (true, s') := by
  have hat := evictAt_of_evict (s := s.cleared s.framesPassed) he hev
  rw [evictFrame, h.evictPass_eq true s.accessedBit fun _ _ => rfl]
  obtain hfind | ⟨hfind, hhead⟩ := Option.or_eq_some_iff.mp hvict
  · rw [hfind]
    dsimp only
    rw [show s.frameTable.takeWhile s.accessedBit = s.framesPassed from rfl, hat]
    rfl
  · rw [framesPassed_of_none hfind] at hat
    rw [hfind]
    -- the second pass finds no bit set and stops at the head of the table
    show (s.cleared s.frameTable).evictPass false s.frameTable = _
    rw [(h.cleared s.frameTable).evictPass_eq false (fun _ => false)
      fun fte hmem => accessedBit_cleared_mem hmem]
    obtain ⟨rest, hft⟩ := head?_eq_some_iff.mp hhead
    rw [hft] at hat ⊢
    rw [find?_cons_of_pos rfl, takeWhile_cons_of_neg (by decide), cleared_nil]
    exact hat

/-- One frame has been evicted: the frame `fte`, with the page of entry `e`. In the page
directories, that page has gone and the accessed bits of the frames passed over are cleared. -/
structure EvictsOne (s s' : Mem) (fte : Fte) (e : Spte) : Prop where
  frameTable : s'.frameTable = s.frameTable.erase fte
  usedMap : s'.usedMap = s.usedMap.set fte.frame false
  gone : (s'.pagedir fte.owner e.userVaddr).present = false
  unloaded : ∃ e', s'.heap fte.spte = some e' ∧ e'.loaded = false
  entries : ∀ ptr, ptr ≠ fte.spte → s'.heap ptr = s.heap ptr
  accessed : ∀ p a, (s'.pagedir p a).accessed =
    ((s.pagedir p a).accessed && !decide (some (p, a) ∈ s.framesPassed.map s.pageOf))
  pages : ∀ p a, ¬ (p = fte.owner ∧ a = e.userVaddr) →
    s'.pagedir p a = { s.pagedir p a with accessed := (s'.pagedir p a).accessed }

theorem cleared_pagedir (s : Mem) (l : List Fte) (p : Nat) (a : UInt32) :
    (s.cleared l).pagedir p a = { s.pagedir p a with
      accessed := (s.pagedir p a).accessed && !decide (some (p, a) ∈ l.map s.pageOf) } := by
  show (if _ then _ else _) = _
  split
  · rename_i h
    rw [decide_eq_true h, Bool.not_true, Bool.and_false]
  · rename_i h
    rw [decide_eq_false h, Bool.not_false, Bool.and_true]

theorem evictsOne_evicted {e' : Spte} {swap : Swap} (hva : e'.userVaddr = e.userVaddr) :
    EvictsOne s ((s.cleared s.framesPassed).evicted fte e' swap) fte e := by
  have hself : ((s.cleared s.framesPassed).evicted fte e' swap).pagedir fte.owner e.userVaddr =
      { (s.cleared s.framesPassed).pagedir fte.owner e.userVaddr with present := false } := by
    rw [← hva]
    exact setPte_self ..
  have hother : ∀ p a, ¬ (p = fte.owner ∧ a = e.userVaddr) →
      ((s.cleared s.framesPassed).evicted fte e' swap).pagedir p a = (s.cleared s.framesPassed).pagedir p a :=
    fun p a hne => setPte_ne _ _ fun hp ha => hne ⟨hp, ha.trans hva⟩
  refine ⟨rfl, rfl, by rw [hself], ⟨_, update_self .., rfl⟩,
    fun ptr hne => update_of_ne hne .., fun p a => ?_, fun p a hne => ?_⟩
  · by_cases hpa : p = fte.owner ∧ a = e.userVaddr
    · rw [hpa.1, hpa.2, hself, cleared_pagedir]
    · rw [hother p a hpa, cleared_pagedir]
  · rw [hother p a hne, cleared_pagedir]

/-- **One frame is evicted**, the victim. -/
theorem Scannable.evictsOne (h : Scannable s s.frameTable) (hne : s.frameTable ≠ [])
    (hslot : s.FreeSlot) : ∃ s' fte e, s.evictFrame = some (true, s') ∧ s.victim = some fte ∧
      s.heap fte.spte = some e ∧ EvictsOne s s' fte e := by
  have hvict : ∃ fte, s.victim = some fte := by
    obtain ⟨fte, rest, hft⟩ := List.exists_cons_of_ne_nil hne
    refine Option.ne_none_iff_exists'.mp fun hnone => ?_
    rw [victim, Option.or_eq_none_iff, hft] at hnone
    cases hnone.2
  obtain ⟨fte, hvict⟩ := hvict
  obtain ⟨e, he, -⟩ := h.entry (victim_mem hvict)
  obtain ⟨s', hev⟩ := exists_evict (s := s.cleared s.framesPassed) hslot (h.used (victim_mem hvict)) e
  refine ⟨s', fte, e, h.evictFrame_eq hvict he hev, hvict, he, ?_⟩
  rcases (evict_cases hev).2 with ⟨-, rfl⟩ | ⟨-, idx, swap, -, rfl⟩
  · exact evictsOne_evicted rfl
  · exact evictsOne_evicted rfl

/-- The structures agree, so `evict_frame` can scan the frame table. -/
theorem Inv.scannable (h : Inv s) : Scannable s s.frameTable where
  entry hfte := by
    obtain ⟨e, hown, -⟩ := h.resident hfte
    exact ⟨e, hown.2, h.typed hown⟩
  pages := by
    refine (nodup_map_iff_inj_on (List.Nodup.of_map _ h.nodup)).mpr fun fte hfte fte' hfte' heq => ?_
    obtain ⟨e, hown, -⟩ := h.resident hfte
    obtain ⟨e', hown', -⟩ := h.resident hfte'
    rw [pageOf_of_heap hown.2, pageOf_of_heap hown'.2, Option.some.injEq, Prod.mk.injEq] at heq
    rw [← heq.1] at hown'
    exact h.fte_eq hfte hfte' (h.vaddr hown hown' heq.2)
  used := h.used

end

end Mem

/-- **Second chance.** `evict_cache` finds no victim iff all entries are pinned; else it is the
first entry that is neither pinned nor marked, or the first that is not pinned. `evict_frame`
evicts one frame, the first whose page has not been accessed, or the first of all. Both take the
mark off what they pass over, and change nothing else outside the victim. -/
theorem second_chance_victims :
    (∀ (st : Store) (sectorIdx : Sector),
      (evictCache st sectorIdx = none ↔ ∀ e ∈ st.bufferCacheList, e.isUsing = true) ∧
      ∀ k st', evictCache st sectorIdx = some (k, st') →
        cacheVictim st.bufferCacheList = some k ∧
        Replaces st.bufferCacheList st'.bufferCacheList k sectorIdx) ∧
    ∀ s : Mem, s.Scannable s.frameTable → s.frameTable ≠ [] → s.FreeSlot →
      ∃ s' fte e, s.evictFrame = some (true, s') ∧ s.victim = some fte ∧ s.heap fte.spte = some e ∧
        s.EvictsOne s' fte e :=
  ⟨fun _ _ => ⟨evictCache_eq_none_iff, fun _ _ h => evictCache_victim h⟩,
    fun _ h hne hslot => h.evictsOne hne hslot⟩

/-- The one page of the pool is evicted. -/
theorem second_chance_victims_one_page : ∃ s s' fte e, Run Mem.call (fun s c => s.spares c = true) onePage
      [.act (.stack 0)] s ∧ s.evictFrame = some (true, s') ∧ s.EvictsOne s' fte e := by
  obtain ⟨s, hrun, hne, hfree⟩ : ∃ s, Run Mem.call (fun s c => s.spares c = true) onePage
      [.act (.stack 0)] s ∧ s.frameTable.isEmpty = false ∧ s.swap.table[0]? = some false := by
    decide +kernel
  obtain ⟨v, -⟩ := Mem.Valid.run_noLeak hrun (Mem.valid_start _ _ _ _ _ _) (Mem.noLeak_start _ _ _ _ _ _)
  obtain ⟨s', fte, e, hev, -, -, hone⟩ := second_chance_victims.2 s v.inv.scannable
    (fun hnil => by rw [hnil] at hne; cases hne) ⟨0, hfree⟩
  exact ⟨s, s', fte, e, hrun, hev, hone⟩

end Pintos.VM
