import Pintos.FileSys.CacheInv
import Pintos.Lib.Run

/-!
# The buffer cache under preemption (`filesys/cache.c`)

`cache_read` and `cache_write` copy the data after they have released
`buffer_cache_lock`; what keeps the entry in place meanwhile is its flag
`is_using`, and `cache_write` marks the entry dirty only after it has cleared that
flag. `cache_write_behind_loop` holds the lock but works on entries others are
using. This module runs any number of such calls, one of these steps at a time.

One flag stands for any number of users, so the entry a thread is copying to may
be given to another sector.
-/

namespace Pintos.FileSys.CacheRace

open Lib Function List Option

/-! ## The steps -/

/-- A call of `cache_read` or `cache_write` with its arguments. -/
structure Call where
  isWrite : Bool
  sector : Sector
  buffer : Buffer
  bytesRead : Nat
  sectorOfs : Nat
  chunkSize : Nat

/-- Where a thread is. The entry it works on is a position in the list. -/
inductive PC where
  | idle
  /-- The lock is released, `memcpy` is next. -/
  | copying (c : Call) (k : Nat)
  /-- `is_using = false` is next. -/
  | unpinning (c : Call) (k : Nat)
  /-- `is_dirty = true` is next. -/
  | dirtying (c : Call) (k : Nat)
  /-- At the head of the loop of `cache_write_behind_loop`. -/
  | scanning (k : Nat)
  /-- The entry is dirty, `is_using = true` is next. -/
  | pinning (k : Nat)
  /-- `disk_write` is next. -/
  | flushing (k : Nat)
  /-- `is_using = false` is next. -/
  | releasing (k : Nat)
  /-- `is_dirty = false` is next. -/
  | cleaning (k : Nat)

/-- `locked` is `buffer_cache_lock`, held from one step to the next by
`cache_write_behind_loop` only. `out` is the memory the last `cache_read` of each
thread has copied to. `written` is what has been written to each sector; no step
reads it. -/
structure State where
  store : Store
  locked : Bool
  pc : Nat → PC
  out : Nat → Buffer
  written : Disk

def State.goto (s : State) (t : Nat) (p : PC) : State := { s with pc := update s.pc t p }

/-- Assign through a `struct buffer_cache *`. -/
def State.modify (s : State) (k : Nat) (f : BufferCache → BufferCache) : State :=
  { s with store := s.store.modifyEntry k f }

inductive Act where
  | call (c : Call)
  | memcpy
  | unpin
  | markDirty
  | startLoop
  | test
  | pin
  | diskWrite
  | release
  | clean

def copy (s : State) (t : Nat) (c : Call) (k : Nat) (e : BufferCache) : State :=
  if c.isWrite then
    let data := e.data.patch c.sectorOfs c.chunkSize c.buffer c.bytesRead
    let written := (s.written c.sector).patch c.sectorOfs c.chunkSize c.buffer c.bytesRead
    { s with written := update s.written c.sector written }.modify k
      fun e => { e with data := data }
  else
    let buffer := copyOut e.data c.sectorOfs c.chunkSize c.buffer c.bytesRead
    { s with out := update s.out t buffer }

/-- One step of thread `t`. There is none where an assertion fails or the lock is
not free. -/
def step (s : State) : Nat × Act → Option State
  | (t, .call c) =>
    match s.pc t with
    | .idle =>
      if s.locked then none
      else do
        let (k, store) ← pinEntry s.store c.sector
        some ({ s with store := store }.goto t (.copying c k))
    | _ => none
  | (t, .memcpy) =>
    match s.pc t with
    | .copying c k => do
      let e ← s.store.bufferCacheList[k]?
      some ((copy s t c k e).goto t (.unpinning c k))
    | _ => none
  | (t, .unpin) =>
    match s.pc t with
    | .unpinning c k =>
      some ((s.modify k fun e => { e with isUsing := false }).goto t
        (if c.isWrite then .dirtying c k else .idle))
    | _ => none
  | (t, .markDirty) =>
    match s.pc t with
    | .dirtying _ k => some ((s.modify k fun e => { e with isDirty := true }).goto t .idle)
    | _ => none
  | (t, .startLoop) =>
    match s.pc t with
    | .idle => if s.locked then none else some ({ s with locked := true }.goto t (.scanning 0))
    | _ => none
  | (t, .test) =>
    match s.pc t with
    | .scanning k =>
      match s.store.bufferCacheList[k]? with
      | some e => some (s.goto t (if e.isDirty then .pinning k else .scanning (k + 1)))
      | none => some ({ s with locked := false }.goto t .idle)
    | _ => none
  | (t, .pin) =>
    match s.pc t with
    | .pinning k => some ((s.modify k fun e => { e with isUsing := true }).goto t (.flushing k))
    | _ => none
  | (t, .diskWrite) =>
    match s.pc t with
    | .flushing k => do
      let e ← s.store.bufferCacheList[k]?
      let store := { s.store with disk := diskWrite s.store.disk e.sector e.data }
      some ({ s with store := store }.goto t (.releasing k))
    | _ => none
  | (t, .release) =>
    match s.pc t with
    | .releasing k => some ((s.modify k fun e => { e with isUsing := false }).goto t (.cleaning k))
    | _ => none
  | (t, .clean) =>
    match s.pc t with
    | .cleaning k =>
      some ((s.modify k fun e => { e with isDirty := false }).goto t (.scanning (k + 1)))
    | _ => none

/-- The call a thread is in the middle of and the entry it works on. -/
def PC.use? : PC → Option (Call × Nat)
  | .copying c k => some (c, k)
  | .unpinning c k => some (c, k)
  | .dirtying c k => some (c, k)
  | _ => none

/-- Nobody is in the middle of a call that works on entry `k`. -/
def State.Unused (s : State) (k : Nat) : Prop := ∀ t c, (s.pc t).use? ≠ some (c, k)

/-- A call that has to evict finds every entry that is not flagged `is_using`
unused, and write-behind finds every dirty entry it comes to unused. -/
def entriesUnused (s : State) : Nat × Act → Prop
  | (_, .call c) => ¬ s.store.cached c.sector → ¬ s.store.cacheCurrentSize < MAX_CACHE_SIZE →
      ∀ k e, s.store.bufferCacheList[k]? = some e → e.isUsing = false → s.Unused k
  | (t, .test) => ∀ k e, s.pc t = .scanning k → s.store.bufferCacheList[k]? = some e →
      e.isDirty = true → s.Unused k
  | _ => True

/-- The entry a thread is about to copy from or to still holds the sector of its
call. -/
def State.SectorsKept (s : State) : Prop :=
  ∀ t c k, s.pc t = .copying c k →
    ∃ e, s.store.bufferCacheList[k]? = some e ∧ e.sector = c.sector

/-- Every sector holds what has been written to it, and a cache entry that differs
from the disk is marked dirty. -/
def State.NothingLost (s : State) : Prop :=
  s.store.view = s.written ∧
    ∀ e ∈ s.store.bufferCacheList, e.data ≠ s.store.disk e.sector → e.isDirty = true

def start (d : Disk) : State := ⟨cacheInit d, false, fun _ => .idle, fun _ _ => 0, d⟩

/-! ## Runs in which entries are unused -/

/-- A thread has copied to entry `k` and not yet marked it dirty. -/
def PC.unmarked : PC → Nat → Prop
  | .unpinning c k, j => c.isWrite = true ∧ k = j
  | .dirtying _ k, j => k = j
  | _, _ => False

/-- The entry `cache_write_behind_loop` is writing. -/
def PC.flush? : PC → Option Nat
  | .pinning k => some k
  | .flushing k => some k
  | .releasing k => some k
  | .cleaning k => some k
  | _ => none

def PC.inLoop : PC → Bool
  | .scanning _ => true
  | p => p.flush?.isSome

/-- The entry has been written to disk, and its dirty mark is about to go. -/
def PC.flushed : PC → Nat → Prop
  | .releasing k, j => k = j
  | .cleaning k, j => k = j
  | _, _ => False

structure Row where
  sector : Sector
  data : Block
  dirty : Bool

def rowOf (e : BufferCache) : Row := ⟨e.sector, e.data, e.isDirty⟩

def State.row (s : State) (k : Nat) : Option Row := (s.store.bufferCacheList[k]?).map rowOf

/-- Entries hold what has been written to their sectors and so does the disk where
there is no entry. An entry that is not dirty equals the disk, unless somebody is
about to mark it. -/
structure Consistent (row : Nat → Option Row) (disk written : Disk) (locked : Bool)
    (pc : Nat → PC) : Prop where
  apart : ∀ j k e e', row j = some e → row k = some e' → e.sector = e'.sector → j = k
  data : ∀ k e, row k = some e → e.data = written e.sector
  noRow : ∀ sector, (∀ k e, row k = some e → e.sector ≠ sector) → disk sector = written sector
  clean : ∀ k e, row k = some e →
    e.dirty = true ∨ disk e.sector = e.data ∨ ∃ t, (pc t).unmarked k
  used : ∀ t c k, (pc t).use? = some (c, k) → ∃ e, row k = some e ∧ e.sector = c.sector
  lock : ∀ t, (pc t).inLoop = true → locked = true
  alone : ∀ t t', (pc t).inLoop = true → (pc t').inLoop = true → t = t'
  unused : ∀ t k, (pc t).flush? = some k → ∀ u c, (pc u).use? ≠ some (c, k)
  flushed : ∀ t k, (pc t).flushed k → ∀ e, row k = some e → disk e.sector = e.data

variable {p : PC} {k : Nat}

theorem PC.use?_of_unmarked (h : p.unmarked k) : ∃ c, p.use? = some (c, k) := by
  cases p <;> simp_all [PC.unmarked, PC.use?]

theorem PC.flush?_of_flushed (h : p.flushed k) : p.flush? = some k := by
  cases p <;> simp_all [PC.flushed, PC.flush?]

theorem PC.inLoop_of_flush? (h : p.flush? = some k) : p.inLoop = true := by
  cases p <;> simp_all [PC.inLoop, PC.flush?]

section
variable {row : Nat → Option Row} {disk written : Disk} {locked : Bool} {pc : Nat → PC} {t k : Nat}
  {e : Row}

/-- A thread goes on to `p`. It may not drop the duty to mark an entry before it is
done, not enter the loop, and it uses and writes entries nobody else writes and
uses. -/
theorem Consistent.goto (h : Consistent row disk written locked pc) (p : PC)
    (hmark : ∀ k, (pc t).unmarked k → p.unmarked k ∨ ∀ e, row k = some e → e.dirty = true)
    (hused : ∀ c k, p.use? = some (c, k) →
      (∃ e, row k = some e ∧ e.sector = c.sector) ∧ ∀ u, (pc u).flush? ≠ some k)
    (hloop : p.inLoop = true → (pc t).inLoop = true)
    (hflush : ∀ k, p.flush? = some k → ∀ u c, (pc u).use? ≠ some (c, k))
    (hflushed : ∀ k, p.flushed k → ∀ e, row k = some e → disk e.sector = e.data) :
    Consistent row disk written locked (update pc t p) where
  __ := h
  clean := by
    intro k e he
    rcases h.clean k e he with hd | hd | ⟨u, hu⟩
    · exact .inl hd
    · exact .inr (.inl hd)
    · by_cases hut : u = t
      · rcases hmark k (hut ▸ hu) with hp | hd
        · exact .inr (.inr ⟨t, by rwa [update_self]⟩)
        · exact .inl (hd e he)
      · exact .inr (.inr ⟨u, by rwa [update_of_ne hut]⟩)
  used := by
    intro u c k hu
    rw [update_apply] at hu
    split at hu
    · exact (hused c k hu).1
    · exact h.used u c k hu
  lock := by
    intro u hu
    rw [update_apply] at hu
    split at hu
    · exact h.lock t (hloop hu)
    · exact h.lock u hu
  alone := by
    -- a thread in the loop after the step was in the loop before
    have hback : ∀ u, (update pc t p u).inLoop = true → (pc u).inLoop = true := by
      intro u hu
      rw [update_apply] at hu
      split at hu
      · rename_i hut
        exact hut ▸ hloop hu
      · exact hu
    exact fun u u' hu hu' => h.alone u u' (hback u hu) (hback u' hu')
  unused := by
    intro u k hu v c hv
    rw [update_apply] at hu hv
    split at hu
    · rename_i hut
      split at hv
      · -- no place of the program both uses and writes an entry
        cases p <;> simp_all [PC.use?, PC.flush?]
      · exact hflush k hu v c hv
    · split at hv
      · exact (hused c k hv).2 u hu
      · exact h.unused u k hu v c hv
  flushed := by
    intro u k hu
    rw [update_apply] at hu
    split at hu
    · exact hflushed k hu
    · exact h.flushed u k hu

/-- Write-behind takes the lock: it is the only one in the loop. -/
theorem Consistent.startLoop (h : Consistent row disk written false pc) (hidle : pc t = .idle) :
    Consistent row disk written true (update pc t (.scanning 0)) := by
  have hback : ∀ u, u ≠ t → update pc t (PC.scanning 0) u = pc u :=
    fun u hu => update_of_ne hu ..
  have honly : ∀ u, (update pc t (PC.scanning 0) u).inLoop = true → u = t := by
    intro u hu
    by_contra hut
    rw [hback u hut] at hu
    cases h.lock u hu
  refine ⟨h.apart, h.data, h.noRow, ?_, ?_, fun _ _ => rfl, ?_, ?_, ?_⟩
  · intro j x hx
    rcases h.clean j x hx with hd | hd | ⟨u, hu⟩
    · exact .inl hd
    · exact .inr (.inl hd)
    · have hut : u ≠ t := by
        rintro rfl
        rw [hidle] at hu
        exact hu.elim
      exact .inr (.inr ⟨u, by rwa [hback u hut]⟩)
  · intro u c j hu
    rw [update_apply] at hu
    split at hu
    · cases hu
    · exact h.used u c j hu
  · exact fun u u' hu hu' => (honly u hu).trans (honly u' hu').symm
  · intro u j hu
    have hut := honly u (PC.inLoop_of_flush? hu)
    rw [hut, update_self] at hu
    cases hu
  · intro u j hu
    have hut := honly u (PC.inLoop_of_flush? (PC.flush?_of_flushed hu))
    rw [hut, update_self] at hu
    exact hu.elim

variable (h : Consistent row disk written locked pc)
include h

/-- Write-behind gives the lock back: nobody is in the loop. -/
theorem Consistent.endLoop (hpc : pc t = .scanning k) :
    Consistent row disk written false (update pc t .idle) := by
  have hidle : Consistent row disk written locked (update pc t .idle) := by
    refine h.goto _ ?_ ?_ ?_ ?_ ?_
    · intro j hj
      rw [hpc] at hj
      exact hj.elim
    · intro c j hj
      cases hj
    · intro hl
      cases hl
    · intro j hj
      cases hj
    · intro j hj
      exact hj.elim
  refine { hidle with lock := ?_ }
  intro u hu
  rw [update_apply] at hu
  split at hu
  · cases hu
  · rename_i hut
    exact absurd (h.alone u t hu (by rw [hpc]; rfl)) hut

theorem Consistent.assign (he : row k = some e) (e' : Row) (hsector : e'.sector = e.sector)
    (hclean : e'.dirty = true ∨ disk e.sector = e'.data ∨ ∃ t, (pc t).unmarked k)
    (hflushed : ∀ t, (pc t).flushed k → disk e.sector = e'.data) :
    Consistent (update row k (some e')) disk
      (update written e.sector e'.data) locked pc := by
  have hrow : ∀ j x, update row k (some e') j = some x →
      (j = k ∧ x = e') ∨ (j ≠ k ∧ row j = some x ∧ x.sector ≠ e.sector) := by
    intro j x hx
    rw [update_apply] at hx
    split at hx
    · exact .inl ⟨‹_›, (Option.some.inj hx).symm⟩
    · rename_i hj
      exact .inr ⟨hj, hx, fun hs => hj (h.apart j k x e hx he hs)⟩
  refine ⟨?_, ?_, ?_, ?_, ?_, h.lock, h.alone, h.unused, ?_⟩
  · intro i j x y hx hy hs
    rcases hrow i x hx with ⟨rfl, rfl⟩ | ⟨hi, hx, hxs⟩
    · rcases hrow j y hy with ⟨rfl, -⟩ | ⟨-, -, hys⟩
      · rfl
      · exact absurd (hs.symm.trans hsector) hys
    · rcases hrow j y hy with ⟨rfl, rfl⟩ | ⟨-, hy, -⟩
      · exact absurd (hs.trans hsector) hxs
      · exact h.apart i j x y hx hy hs
  · intro j x hx
    rcases hrow j x hx with ⟨-, rfl⟩ | ⟨-, hx, hxs⟩
    · rw [hsector, update_self]
    · rw [update_of_ne hxs]
      exact h.data j x hx
  · intro sector hnone
    have hne : sector ≠ e.sector := by
      rintro rfl
      exact hnone k e' (update_self ..) hsector
    rw [update_of_ne hne]
    refine h.noRow sector fun j x hx => ?_
    by_cases hj : j = k
    · subst hj
      rw [he] at hx
      cases hx
      exact hne.symm
    · exact hnone j x (by rwa [update_of_ne hj])
  · intro j x hx
    rcases hrow j x hx with ⟨rfl, rfl⟩ | ⟨-, hx, -⟩
    · rwa [hsector]
    · exact h.clean j x hx
  · intro u c j hu
    obtain ⟨x, hx, hxs⟩ := h.used u c j hu
    by_cases hj : j = k
    · subst hj
      rw [he] at hx
      cases hx
      exact ⟨e', update_self .., hsector.trans hxs⟩
    · exact ⟨x, by rwa [update_of_ne hj], hxs⟩
  · intro u j hu x hx
    rcases hrow j x hx with ⟨rfl, rfl⟩ | ⟨-, hx, -⟩
    · rw [hsector]
      exact hflushed u hu
    · exact h.flushed u j hu x hx

theorem Consistent.setDirty (he : row k = some e) (b : Bool)
    (hclean : b = true ∨ disk e.sector = e.data) :
    Consistent (update row k (some { e with dirty := b })) disk written locked pc := by
  have hsame : update written e.sector e.data = written := by
    rw [h.data k e he]
    exact update_eq_self ..
  have hnew := h.assign he { e with dirty := b } rfl
    (hclean.imp id fun hd => .inl hd) (fun u hu => h.flushed u k hu e he)
  rwa [hsame] at hnew

theorem Consistent.writeOut (he : row k = some e) :
    Consistent row (diskWrite disk e.sector e.data) written locked pc := by
  have hdisk : ∀ j x, row j = some x →
      disk x.sector = x.data ∨ j = k → diskWrite disk e.sector e.data x.sector = x.data := by
    intro j x hx hor
    by_cases hs : x.sector = e.sector
    · have hj := h.apart j k x e hx he hs
      subst hj
      rw [he] at hx
      cases hx
      exact update_self ..
    · rw [diskWrite, update_of_ne hs]
      rcases hor with hd | rfl
      · exact hd
      · rw [he] at hx
        cases hx
        exact absurd rfl hs
  refine { h with noRow := ?_, clean := ?_, flushed := ?_ }
  · intro sector hnone
    rw [diskWrite, update_of_ne (hnone k e he).symm]
    exact h.noRow sector hnone
  · intro j x hx
    rcases h.clean j x hx with hd | hd | hd
    · exact .inl hd
    · exact .inr (.inl (hdisk j x hx (.inl hd)))
    · exact .inr (.inr hd)
  · intro u j hu x hx
    exact hdisk j x hx (.inl (h.flushed u j hu x hx))

/-- A sector without an entry is loaded into a position that nobody works on and
whose old entry, if there was one, is on disk. -/
theorem Consistent.load {sector : Sector} (hmiss : ∀ j x, row j = some x → x.sector ≠ sector)
    (hold : ∀ x, row k = some x → disk x.sector = x.data)
    (hunused : ∀ u c, (pc u).use? ≠ some (c, k)) (hflush : ∀ u, (pc u).flush? ≠ some k) :
    Consistent (update row k (some ⟨sector, disk sector, false⟩)) disk written locked
      pc := by
  have hrow : ∀ j x, update row k (some ⟨sector, disk sector, false⟩) j = some x →
      (j = k ∧ x = ⟨sector, disk sector, false⟩) ∨ (j ≠ k ∧ row j = some x) := by
    intro j x hx
    rw [update_apply] at hx
    split at hx
    · exact .inl ⟨‹_›, (Option.some.inj hx).symm⟩
    · exact .inr ⟨‹_›, hx⟩
  refine ⟨?_, ?_, ?_, ?_, ?_, h.lock, h.alone, h.unused, ?_⟩
  · intro i j x y hx hy hs
    rcases hrow i x hx with ⟨rfl, rfl⟩ | ⟨-, hx'⟩
    · rcases hrow j y hy with ⟨rfl, -⟩ | ⟨-, hy'⟩
      · rfl
      · exact absurd hs.symm (hmiss j y hy')
    · rcases hrow j y hy with ⟨rfl, rfl⟩ | ⟨-, hy'⟩
      · exact absurd hs (hmiss i x hx')
      · exact h.apart i j x y hx' hy' hs
  · intro j x hx
    rcases hrow j x hx with ⟨-, rfl⟩ | ⟨-, hx⟩
    · exact h.noRow sector hmiss
    · exact h.data j x hx
  · intro u hnone
    by_cases hk : ∃ x, row k = some x ∧ x.sector = u
    · obtain ⟨x, hx, rfl⟩ := hk
      rw [hold x hx]
      exact h.data k x hx
    · refine h.noRow u fun j x hx hxu => ?_
      by_cases hj : j = k
      · subst hj
        exact hk ⟨x, hx, hxu⟩
      · exact hnone j x (by rwa [update_of_ne hj]) hxu
  · intro j x hx
    rcases hrow j x hx with ⟨-, rfl⟩ | ⟨-, hx⟩
    · exact .inr (.inl rfl)
    · exact h.clean j x hx
  · intro u c j hu
    have hj : j ≠ k := fun hjk => hunused u c (hjk ▸ hu)
    rw [update_of_ne hj]
    exact h.used u c j hu
  · intro u j hu x hx
    rcases hrow j x hx with ⟨rfl, -⟩ | ⟨-, hx⟩
    · exact absurd (PC.flush?_of_flushed hu) (hflush u)
    · exact h.flushed u j hu x hx

end

/-! ## The steps of the calls -/

def State.Inv (s : State) : Prop := Consistent s.row s.store.disk s.written s.locked s.pc

section
variable {s s' : State} {t k : Nat} {c : Call} {e : BufferCache}

theorem row_of_getElem? (h : s.store.bufferCacheList[k]? = some e) : s.row k = some (rowOf e) := by
  rw [State.row, h]
  rfl

theorem getElem?_of_row {x : Row} (h : s.row k = some x) :
    ∃ e, s.store.bufferCacheList[k]? = some e ∧ rowOf e = x :=
  map_eq_some_iff.mp h

theorem row_modify (h : s.store.bufferCacheList[k]? = some e) (f : BufferCache → BufferCache) :
    (s.modify k f).row = update s.row k (some (rowOf (f e))) := by
  funext j
  rw [update_apply]
  simp only [State.row, State.modify, Store.modifyEntry, getElem?_modify]
  split
  · rename_i hj
    subst hj
    simp [h]
  · rename_i hj
    rw [if_neg (Ne.symm hj)]
    simp

theorem row_modify_same (f : BufferCache → BufferCache) (hf : ∀ e, rowOf (f e) = rowOf e) :
    (s.modify k f).row = s.row := by
  funext j
  simp only [State.row, State.modify, Store.modifyEntry, getElem?_modify]
  cases s.store.bufferCacheList[j]? with
  | none => rfl
  | some e =>
    simp only [Option.map_eq_map, Option.map_some]
    split
    · rw [hf e]
    · rfl

theorem start_inv (d : Disk) : (start d).Inv := by
  constructor <;> simp [start, State.row, cacheInit, PC.use?, PC.flush?, PC.inLoop, PC.flushed]

/-- Only the two scans of `evict_cache` decide which entry is taken over, and they
take one that is not pinned. -/
theorem secondChance_idle {l : List BufferCache} (h : (secondChance l).2 = some k) :
    ∃ e, (secondChance l).1[k]? = some e ∧ e.isUsing = false := by
  induction l generalizing k with
  | nil => simp [secondChance] at h
  | cons e rest ih =>
    unfold secondChance at h ⊢
    split at h
    · rename_i hu
      obtain ⟨j, hj, rfl⟩ := map_eq_some_iff.mp h
      rw [if_pos hu]
      exact ih hj
    · rename_i hu
      rw [if_neg hu]
      split at h
      · rename_i hused
        obtain ⟨j, hj, rfl⟩ := map_eq_some_iff.mp h
        rw [if_pos hused]
        exact ih hj
      · rename_i hused
        cases h
        rw [if_neg hused]
        exact ⟨e, rfl, by simpa using hu⟩

/-- The entries in the two lists differ in `is_used` only. -/
theorem sameButUsed_getElem? {l l' : List BufferCache} (h : SameButUsed l l')
    (hk : l'[k]? = some e) : ∃ b, l[k]? = some { e with isUsed := b } := by
  have hmap := congrArg (fun m => m[k]?) h
  simp only [getElem?_map, hk, Option.map_some] at hmap
  obtain ⟨e0, he0, heq⟩ := map_eq_some_iff.mp hmap.symm
  refine ⟨e0.isUsed, he0.trans ?_⟩
  cases e
  cases e0
  simp_all

variable {sector : Sector}

/-- An eviction that succeeds takes over an entry that is not pinned. -/
theorem evictCache_some {st st' : Store} (h : evictCache st sector = some (k, st')) :
    ∃ l e, SameButUsed st.bufferCacheList l ∧ l[k]? = some e ∧ e.isUsing = false ∧
      takeOver { st with bufferCacheList := l } k sector = some (k, st') := by
  have htake : ∀ l j, takeOver { st with bufferCacheList := l } j sector = some (k, st') → j = k := by
    intro l j hj
    obtain ⟨e, -, he⟩ := bind_eq_some_iff.mp hj
    cases he
    rfl
  unfold evictCache at h
  have hsame := secondChance_same st.bufferCacheList
  rcases hsc : secondChance st.bufferCacheList with ⟨l, v⟩
  rw [hsc] at h hsame
  cases v with
  | some j =>
    have hj := htake l j h
    subst hj
    obtain ⟨e, he, hidle⟩ := secondChance_idle (l := st.bufferCacheList) (k := j) (by rw [hsc])
    rw [hsc] at he
    exact ⟨l, e, hsame, he, hidle, h⟩
  | none =>
    have hsame' := secondChance_same l
    rcases hsc' : secondChance l with ⟨l', v'⟩
    rw [hsc'] at hsame'
    simp only [hsc'] at h
    cases v' with
    | some j =>
      have hj := htake l' j h
      subst hj
      obtain ⟨e, he, hidle⟩ := secondChance_idle (l := l) (k := j) (by rw [hsc'])
      rw [hsc'] at he
      exact ⟨l', e, hsame.trans hsame', he, hidle, h⟩
    | none => cases h

/-- What `cache_read` and `cache_write` do under the lock: the entry was there, or
it has been appended, or it has taken the place of one that was not pinned. -/
theorem pinEntry_cases {st st' : Store} (h : pinEntry st sector = some (k, st')) :
    (∃ e, st.bufferCacheList[k]? = some e ∧ e.sector = sector ∧
      st' = st.modifyEntry k fun e => { e with isUsed := true, isUsing := true }) ∨
    (¬ st.cached sector ∧ k = st.bufferCacheList.length ∧ st'.disk = st.disk ∧
      st'.bufferCacheList = st.bufferCacheList ++ [⟨sector, st.disk sector, true, false, true⟩]) ∨
    (¬ st.cached sector ∧ ¬ st.cacheCurrentSize < MAX_CACHE_SIZE ∧ ∃ l e,
      SameButUsed st.bufferCacheList l ∧ l[k]? = some e ∧ e.isUsing = false ∧
      st'.disk = (if e.isDirty then diskWrite st.disk e.sector e.data else st.disk) ∧
      st'.bufferCacheList = l.set k ⟨sector, st'.disk sector, e.isUsed, false, true⟩) := by
  unfold pinEntry at h
  cases hf : findCache st sector with
  | some j =>
    rw [hf] at h
    cases h
    obtain ⟨l1, e, l2, hl, rfl, hs⟩ := findCache_some hf
    exact .inl ⟨e, by simp [hl], hs, rfl⟩
  | none =>
    rw [hf] at h
    have hmiss := findCache_none hf
    dsimp only at h
    split at h
    · cases h
      refine .inr (.inl ⟨hmiss, rfl, rfl, ?_⟩)
      simp [allocateNewCache, Store.modifyEntry, modify_split]
    · rename_i hroom
      obtain ⟨⟨j, st1⟩, hnew, h⟩ := Option.bind_eq_some_iff.mp h
      cases h
      obtain ⟨l, e, hsame, he, hidle, htake⟩ := evictCache_some hnew
      refine .inr (.inr ⟨hmiss, hroom, l, e, hsame, he, hidle, ?_⟩)
      simp only [takeOver, he, some_bind, Option.some.injEq,
        Prod.mk.injEq, true_and] at htake
      subst htake
      have hk := (List.getElem?_eq_some_iff.mp he).1
      refine ⟨rfl, ?_⟩
      simp only [Store.modifyEntry]
      obtain ⟨l1, x, l2, rfl, rfl⟩ := exists_split hk
      simp only [modify_split, List.set_append_right _ _ (Nat.le_refl _), Nat.sub_self,
        List.set_cons_zero]
      simp at he
      subst he
      rfl

theorem State.Inv.flush?_ne (h : s.Inv) (hfree : s.locked = false) (u k : Nat) :
    (s.pc u).flush? ≠ some k := by
  intro hu
  have := h.lock u (PC.inLoop_of_flush? hu)
  rw [hfree] at this
  cases this

theorem not_row_of_not_cached (h : ¬ s.store.cached sector) :
    ∀ j x, s.row j = some x → x.sector ≠ sector := by
  intro j x hx hsec
  obtain ⟨e, he, rfl⟩ := getElem?_of_row hx
  exact h ⟨e, mem_of_getElem? he, hsec⟩

theorem State.Inv.startCopy (h : s.Inv) (hidle : s.pc t = .idle) (hfree : s.locked = false)
    {x : Row} (hrow : s.row k = some x) (hsector : x.sector = c.sector) :
    (s.goto t (.copying c k)).Inv := by
  refine Consistent.goto h _ ?_ ?_ ?_ ?_ ?_
  · intro j hj
    rw [hidle] at hj
    exact hj.elim
  · intro c' j hj
    cases hj
    exact ⟨⟨x, hrow, hsector⟩, fun u => h.flush?_ne hfree u k⟩
  · intro hl
    cases hl
  · intro j hj
    cases hj
  · intro j hj
    exact hj.elim

theorem State.Inv.call (h : s.Inv) {store : Store} (hidle : s.pc t = .idle)
    (hfree : s.locked = false) (hok : entriesUnused s (t, .call c))
    (hpin : pinEntry s.store c.sector = some (k, store)) :
    ({ s with store := store }.goto t (.copying c k)).Inv := by
  rcases pinEntry_cases hpin with ⟨e, he, hs, rfl⟩ | ⟨hmiss, rfl, hdisk, hlist⟩ |
    ⟨hmiss, hfull, l, e, hsame, he, hunpinned, hdisk, hlist⟩
  · -- the entry was there
    have hrow := row_modify_same (s := s) (k := k)
      (fun e => { e with isUsed := true, isUsing := true }) (fun _ => rfl)
    have hinv : (s.modify k fun e => { e with isUsed := true, isUsing := true }).Inv := by
      unfold State.Inv
      rw [hrow]
      exact h
    refine hinv.startCopy hidle hfree (x := rowOf e) ?_ hs
    rw [hrow]
    exact row_of_getElem? he
  · -- it has been appended
    have hrow : State.row { s with store := store } =
        update s.row s.store.bufferCacheList.length
          (some ⟨c.sector, s.store.disk c.sector, false⟩) := by
      funext j
      rw [update_apply]
      simp only [State.row, hlist, List.getElem?_append]
      grind [rowOf]
    have hnone : s.row s.store.bufferCacheList.length = none := by simp [State.row]
    have hinv : State.Inv { s with store := store } := by
      unfold State.Inv
      rw [hrow, hdisk]
      refine Consistent.load h (not_row_of_not_cached hmiss) ?_ ?_
        (fun u => h.flush?_ne hfree u _)
      · intro x hx
        rw [hnone] at hx
        cases hx
      · intro u c' hu
        obtain ⟨x, hx, -⟩ := h.used u c' _ hu
        rw [hnone] at hx
        cases hx
    exact hinv.startCopy hidle hfree (by rw [hrow, update_self]) rfl
  · -- it has taken the place of one that nobody uses
    obtain ⟨b, he'⟩ := sameButUsed_getElem? hsame he
    have hold : s.row k = some (rowOf e) := (row_of_getElem? he' :)
    have hunused := hok hmiss hfull k _ he' hunpinned
    have hrow : State.row { s with store := store } =
        update s.row k (some ⟨c.sector, store.disk c.sector, false⟩) := by
      funext j
      rw [update_apply]
      have hl : (l[j]?).map rowOf = s.row j := by
        have hmap := congrArg (fun m => (m.map rowOf)[j]?) hsame
        simp only [List.map_map, List.getElem?_map] at hmap
        exact hmap
      simp only [State.row, hlist, List.getElem?_set]
      split
      · rename_i hj
        subst hj
        simp [rowOf, (List.getElem?_eq_some_iff.mp he).1]
      · rename_i hj
        rw [if_neg (Ne.symm hj)]
        exact hl
    have hout : Consistent s.row store.disk s.written s.locked s.pc ∧
        store.disk e.sector = e.data := by
      rw [hdisk]
      split
      · exact ⟨Consistent.writeOut h hold, update_self ..⟩
      · rename_i hclean
        refine ⟨h, ?_⟩
        rcases h.clean k _ hold with hd | hd | ⟨u, hu⟩
        · exact absurd hd hclean
        · exact hd
        · obtain ⟨c', hu⟩ := PC.use?_of_unmarked hu
          exact absurd hu (hunused u c')
    have hinv : State.Inv { s with store := store } := by
      unfold State.Inv
      rw [hrow]
      refine Consistent.load hout.1 (not_row_of_not_cached hmiss) ?_ hunused
        (fun u => h.flush?_ne hfree u k)
      intro x hx
      rw [hold] at hx
      cases hx
      exact hout.2
    exact hinv.startCopy hidle hfree (by rw [hrow, update_self]) rfl

/-- The `memcpy` of a write: `t` now has to mark the entry. -/
theorem State.Inv.copyWrite (h : s.Inv) (hpc : s.pc t = .copying c k) (hwrite : c.isWrite = true)
    (he : s.store.bufferCacheList[k]? = some e) :
    ((copy s t c k e).goto t (.unpinning c k)).Inv := by
  have huse : (s.pc t).use? = some (c, k) := by
    rw [hpc]
    rfl
  have hrow := row_of_getElem? he
  have hsector : e.sector = c.sector := by
    obtain ⟨x, hx, hxs⟩ := h.used t c k huse
    rw [hrow] at hx
    cases hx
    exact hxs
  have hnoFlush : ∀ u, (s.pc u).flush? ≠ some k := fun u hu => h.unused u k hu t c huse
  have hgoto : Consistent s.row s.store.disk s.written s.locked
      (update s.pc t (.unpinning c k)) := by
    refine Consistent.goto h _ ?_ ?_ ?_ ?_ ?_
    · intro j hj
      rw [hpc] at hj
      exact hj.elim
    · intro c' j hj
      cases hj
      exact ⟨⟨rowOf e, hrow, hsector⟩, hnoFlush⟩
    · intro hl
      cases hl
    · intro j hj
      cases hj
    · intro j hj
      exact hj.elim
  have hnew := hgoto.assign hrow
    { rowOf e with data := e.data.patch c.sectorOfs c.chunkSize c.buffer c.bytesRead } rfl
    (.inr (.inr ⟨t, by simp [PC.unmarked, hwrite]⟩)) (fun u hu => by
      rw [update_apply] at hu
      split at hu
      · exact hu.elim
      · exact absurd (PC.flush?_of_flushed hu) (hnoFlush u))
  have hdata : e.data = s.written c.sector := by
    rw [← hsector]
    exact h.data k _ hrow
  unfold copy
  rw [if_pos hwrite]
  show Consistent (State.row (s.modify k _)) s.store.disk (update s.written c.sector
    ((s.written c.sector).patch c.sectorOfs c.chunkSize c.buffer c.bytesRead)) s.locked _
  rw [row_modify he, ← hdata, ← hsector]
  exact hnew

theorem State.Inv.copyRead (h : s.Inv) (hpc : s.pc t = .copying c k) (hread : c.isWrite = false) :
    ((copy s t c k e).goto t (.unpinning c k)).Inv := by
  have huse : (s.pc t).use? = some (c, k) := by
    rw [hpc]
    rfl
  unfold copy
  rw [if_neg (by simp [hread])]
  refine Consistent.goto h _ ?_ ?_ ?_ ?_ ?_
  · intro j hj
    rw [hpc] at hj
    exact hj.elim
  · intro c' j hj
    cases hj
    exact ⟨h.used t c k huse, fun u hu => h.unused u k hu t c huse⟩
  · intro hl
    cases hl
  · intro j hj
    cases hj
  · intro j hj
    exact hj.elim

theorem State.Inv.unpin (h : s.Inv) (hpc : s.pc t = .unpinning c k) :
    (s.goto t (if c.isWrite then .dirtying c k else .idle)).Inv := by
  have huse : (s.pc t).use? = some (c, k) := by
    rw [hpc]
    rfl
  refine Consistent.goto h _ ?_ ?_ ?_ ?_ ?_
  · intro j hj
    rw [hpc] at hj
    obtain ⟨hw, rfl⟩ := hj
    rw [if_pos hw]
    exact .inl rfl
  · intro c' j hj
    split at hj
    · cases hj
      exact ⟨h.used t c k huse, fun u hu => h.unused u k hu t c huse⟩
    · cases hj
  · split <;> exact nofun
  · split <;> exact nofun
  · split <;> exact fun j hj => hj.elim

/-- The entry is dirty now, so that `t` is done with it. -/
theorem State.Inv.markDirty (h : s.Inv) (hpc : s.pc t = .dirtying c k) :
    ((s.modify k fun e => { e with isDirty := true }).goto t .idle).Inv := by
  have huse : (s.pc t).use? = some (c, k) := by
    rw [hpc]
    rfl
  obtain ⟨x, hx, -⟩ := h.used t c k huse
  obtain ⟨e, he, rfl⟩ := getElem?_of_row hx
  have hset := Consistent.setDirty h hx true (.inl rfl)
  have hrow := row_modify he fun e => { e with isDirty := true }
  unfold State.Inv
  show Consistent (State.row (s.modify k _)) s.store.disk s.written s.locked _
  rw [hrow]
  refine hset.goto _ ?_ ?_ ?_ ?_ ?_
  · intro j hj
    rw [hpc] at hj
    cases hj
    refine .inr fun y hy => ?_
    rw [update_self] at hy
    cases hy
    rfl
  · intro c' j hj
    cases hj
  · intro hl
    cases hl
  · intro j hj
    cases hj
  · intro j hj
    exact hj.elim

theorem PC.use?_of_inLoop (h : p.inLoop = true) : p.use? = none := by
  cases p <;> simp_all [PC.inLoop, PC.use?, PC.flush?]

variable (h : s.Inv)
include h

theorem State.Inv.advance (hin : (s.pc t).inLoop = true) (p : PC) (hp : p.inLoop = true)
    (hflush : ∀ k, p.flush? = some k → s.Unused k)
    (hflushed : ∀ k, p.flushed k → ∀ x, s.row k = some x → s.store.disk x.sector = x.data) :
    (s.goto t p).Inv := by
  refine Consistent.goto h p ?_ ?_ (fun _ => hin) hflush hflushed
  · intro j hj
    obtain ⟨c, hu⟩ := PC.use?_of_unmarked hj
    rw [PC.use?_of_inLoop hin] at hu
    cases hu
  · intro c j hj
    rw [PC.use?_of_inLoop hp] at hj
    cases hj

theorem State.Inv.diskWrite (hpc : s.pc t = .flushing k) (he : s.store.bufferCacheList[k]? = some e)
    {store : Store}
    (hstore : store = { s.store with disk := FileSys.diskWrite s.store.disk e.sector e.data }) :
    ({ s with store := store }.goto t (.releasing k)).Inv := by
  subst hstore
  have hrow := row_of_getElem? he
  have hinv : State.Inv { s with
      store := { s.store with disk := FileSys.diskWrite s.store.disk e.sector e.data } } :=
    Consistent.writeOut h hrow
  have hflush : (s.pc t).flush? = some k := by
    rw [hpc]
    rfl
  refine hinv.advance (PC.inLoop_of_flush? hflush) _ rfl ?_ ?_
  · intro j hj
    cases hj
    exact h.unused t k hflush
  · intro j hj x hx
    cases hj
    have hx' : s.row k = some x := hx
    rw [hrow] at hx'
    cases hx'
    exact update_self ..

theorem State.Inv.cleanEntry (hpc : s.pc t = .cleaning k) :
    ((s.modify k fun e => { e with isDirty := false }).goto t (.scanning (k + 1))).Inv := by
  have hflush : (s.pc t).flush? = some k := by
    rw [hpc]
    rfl
  have hflushed : (s.pc t).flushed k := by
    rw [hpc]
    rfl
  have hinv : (s.modify k fun e => { e with isDirty := false }).Inv := by
    cases he : s.store.bufferCacheList[k]? with
    | none =>
      have hsame : s.modify k (fun e => { e with isDirty := false }) = s := by
        have hlen := getElem?_eq_none_iff.mp he
        simp only [State.modify, Store.modifyEntry, modify_eq_self hlen]
      rwa [hsame]
    | some e =>
      have hrow := row_of_getElem? he
      show Consistent (State.row (s.modify k _)) s.store.disk s.written s.locked s.pc
      rw [row_modify he]
      exact Consistent.setDirty h hrow false (.inr (h.flushed t k hflushed _ hrow))
  refine hinv.advance (PC.inLoop_of_flush? hflush) _ rfl ?_ ?_
  · intro j hj
    cases hj
  · intro j hj
    exact hj.elim

theorem State.Inv.setUsing (k : Nat) (b : Bool) :
    (s.modify k fun e => { e with isUsing := b }).Inv := by
  unfold State.Inv
  rw [row_modify_same (fun e => { e with isUsing := b }) fun _ => rfl]
  exact h

/-- **Every step keeps the invariant**, if entries are unused. -/
theorem step_inv {a : Nat × Act} (hok : entriesUnused s a) (hstep : step s a = some s') :
    s'.Inv := by
  obtain ⟨t, a⟩ := a
  cases a with
  | call c =>
    simp only [step] at hstep
    split at hstep
    · rename_i hidle
      split at hstep
      · cases hstep
      · rename_i hfree
        obtain ⟨⟨k, store⟩, hpin, hstep⟩ := bind_eq_some_iff.mp hstep
        cases hstep
        exact h.call hidle (by simpa using hfree) hok hpin
    · cases hstep
  | memcpy =>
    simp only [step] at hstep
    split at hstep
    · rename_i c k hpc
      obtain ⟨e, he, hstep⟩ := bind_eq_some_iff.mp hstep
      cases hstep
      cases hw : c.isWrite with
      | true => exact h.copyWrite hpc hw he
      | false => exact h.copyRead hpc hw
    · cases hstep
  | unpin =>
    simp only [step] at hstep
    split at hstep
    · rename_i c k hpc
      cases hstep
      exact (h.setUsing k false).unpin hpc
    · cases hstep
  | markDirty =>
    simp only [step] at hstep
    split at hstep
    · rename_i c k hpc
      cases hstep
      exact h.markDirty hpc
    · cases hstep
  | startLoop =>
    simp only [step] at hstep
    split at hstep
    · rename_i hidle
      split at hstep
      · cases hstep
      · rename_i hfree
        cases hstep
        have hfree : s.locked = false := by simpa using hfree
        unfold State.Inv at h
        rw [hfree] at h
        exact h.startLoop hidle
    · cases hstep
  | test =>
    simp only [step] at hstep
    split at hstep
    · rename_i k hpc
      have hin : (s.pc t).inLoop = true := by
        rw [hpc]
        rfl
      split at hstep
      · rename_i e he
        cases hstep
        split
        · rename_i hd
          refine h.advance hin _ rfl ?_ (fun j hj => hj.elim)
          intro j hj
          cases hj
          exact hok k e hpc he hd
        · exact h.advance hin _ rfl nofun (fun j hj => hj.elim)
      · cases hstep
        exact Consistent.endLoop h hpc
    · cases hstep
  | pin =>
    simp only [step] at hstep
    split at hstep
    · rename_i k hpc
      cases hstep
      have hflush : (s.pc t).flush? = some k := by
        rw [hpc]
        rfl
      refine (h.setUsing k true).advance (PC.inLoop_of_flush? hflush) _ rfl ?_ (fun j hj => hj.elim)
      intro j hj
      cases hj
      exact h.unused t k hflush
    · cases hstep
  | diskWrite =>
    simp only [step] at hstep
    split at hstep
    · rename_i k hpc
      obtain ⟨e, he, hstep⟩ := bind_eq_some_iff.mp hstep
      cases hstep
      exact h.diskWrite hpc he rfl
    · cases hstep
  | release =>
    simp only [step] at hstep
    split at hstep
    · rename_i k hpc
      cases hstep
      have hflush : (s.pc t).flush? = some k := by
        rw [hpc]
        rfl
      have hflushed : (s.pc t).flushed k := by
        rw [hpc]
        rfl
      have hinv := h.setUsing k false
      refine hinv.advance (PC.inLoop_of_flush? hflush) _ rfl ?_ ?_
      · intro j hj
        cases hj
        exact h.unused t k hflush
      · intro j hj
        cases hj
        exact hinv.flushed t k hflushed
    · cases hstep
  | clean =>
    simp only [step] at hstep
    split at hstep
    · rename_i k hpc
      cases hstep
      exact h.cleanEntry hpc
    · cases hstep

theorem State.Inv.sectorsKept : s.SectorsKept := by
  intro t c k hpc
  obtain ⟨x, hx, hs⟩ := h.used t c k (by rw [hpc]; rfl)
  obtain ⟨e, he, rfl⟩ := getElem?_of_row hx
  exact ⟨e, he, hs⟩

theorem State.Inv.nodup : (s.store.bufferCacheList.map BufferCache.sector).Nodup := by
  rw [nodup_iff_injective_getElem]
  intro i j hij
  have hi : i.val < s.store.bufferCacheList.length := by simpa using i.isLt
  have hj : j.val < s.store.bufferCacheList.length := by simpa using j.isLt
  simp only [getElem_map] at hij
  exact Fin.ext (h.apart i j _ _ (row_of_getElem? (getElem?_eq_getElem hi))
    (row_of_getElem? (getElem?_eq_getElem hj)) hij)

theorem State.Inv.nothingLost (hidle : ∀ t, s.pc t = .idle) : s.NothingLost := by
  refine ⟨view_unique h.nodup ?_ ?_, ?_⟩
  · intro e he
    obtain ⟨k, hk⟩ := mem_iff_getElem?.mp he
    exact h.data k _ (row_of_getElem? hk)
  · intro sector hs
    exact h.noRow sector (not_row_of_not_cached hs)
  · intro e he hne
    obtain ⟨k, hk⟩ := mem_iff_getElem?.mp he
    rcases h.clean k _ (row_of_getElem? hk) with hd | hd | ⟨t, ht⟩
    · exact hd
    · exact absurd hd.symm hne
    · rw [hidle t] at ht
      exact ht.elim

end

/-- **No cached write is lost** in a run in which every eviction and every
write-behind finds the entries it may take or write unused: a thread copies to or
from its own sector, and whenever no call is in progress every sector holds what
has been written to it. -/
theorem no_write_lost_if_entries_unused {d : Disk} {s : State} {as : List (Nat × Act)}
    (hrun : Run step entriesUnused (start d) as s) :
    s.SectorsKept ∧ ((∀ t, s.pc t = .idle) → s.NothingLost) := by
  have hinv := hrun.invariant (fun _ _ _ hi hok hs => step_inv hi hok hs) (start_inv d)
  exact ⟨hinv.sectorsKept, hinv.nothingLost⟩

theorem pc_of_run {ok : State → Nat × Act → Prop} {s s' : State} {as : List (Nat × Act)}
    (hrun : Run step ok s as s') {u : Nat} (hu : ∀ a ∈ as, a.1 ≠ u) : s'.pc u = s.pc u := by
  induction hrun with
  | nil => rfl
  | @snoc r r' as a _ _ hstep ih =>
    rw [← ih fun b hb => hu b (mem_append_left _ hb)]
    obtain ⟨t, a⟩ := a
    have hut : u ≠ t := (hu (t, a) (by simp)).symm
    have hgoto : ∀ (q : State) (p : PC), (q.goto t p).pc u = q.pc u :=
      fun q p => update_of_ne hut ..
    cases a <;> simp only [step] at hstep <;> grind [State.modify, copy, bind_eq_some_iff]

def writeByte (b : UInt8) : Call := ⟨true, 5, fun _ => b, 0, 0, 1⟩

def readByte : Call := ⟨false, 5, fun _ => 0, 0, 0, 1⟩

/-- A write and a read of one sector at the same time. -/
theorem no_write_lost_if_entries_unused_two_threads : ∃ s,
    Run step entriesUnused (start fun _ => Arr.const 0)
      [(0, .call (writeByte 7)), (1, .call readByte), (0, .memcpy), (0, .unpin), (1, .memcpy),
        (1, .unpin), (0, .markDirty)] s ∧ s.SectorsKept ∧ s.NothingLost := by
  have hroom : ∀ (s : State) (t : Nat) (c : Call), s.store.cacheCurrentSize < MAX_CACHE_SIZE →
      entriesUnused s (t, .call c) := fun s t c hlt _ hfull => absurd hlt hfull
  have hrun : Run step entriesUnused (start fun _ => Arr.const 0)
      ([] ++ [(0, .call (writeByte 7))] ++ [(1, .call readByte)] ++ [(0, .memcpy)] ++
        [(0, .unpin)] ++ [(1, .memcpy)] ++ [(1, .unpin)] ++ [(0, .markDirty)]) _ :=
    .snoc (.snoc (.snoc (.snoc (.snoc (.snoc (.snoc .nil (hroom _ _ _ (by decide)) rfl)
      (hroom _ _ _ (by decide)) rfl) trivial rfl) trivial rfl) trivial rfl) trivial rfl) trivial rfl
  have h := no_write_lost_if_entries_unused hrun
  refine ⟨_, hrun, h.1, h.2 fun t => ?_⟩
  by_cases h0 : t = 0
  · subst h0
    rfl
  · by_cases h1 : t = 1
    · subst h1
      rfl
    · rw [pc_of_run hrun (by simp [Ne.symm h0, Ne.symm h1])]
      rfl

/-- Write-behind has written the entry when a second write changes and marks it; it
then clears the new mark. -/
theorem write_behind_wipes_dirty_mark : ∃ s,
    Run step (fun _ _ => True) (start fun _ => Arr.const 0)
      [(0, .call (writeByte 7)), (0, .memcpy), (0, .unpin), (0, .markDirty),
        (0, .call (writeByte 8)), (1, .startLoop), (1, .test), (1, .pin), (1, .diskWrite),
        (0, .memcpy), (0, .unpin), (0, .markDirty), (1, .release), (1, .clean), (1, .test)] s ∧
    (∀ t, s.pc t = .idle) ∧ ¬ s.NothingLost := by
  have hidle : ∀ p : PC, (match p with | .idle => true | _ => false) = true → p = .idle := by
    intro p hp
    cases p <;> simp_all
  refine Run.exists_guarded (fun s => (match s.pc 0 with | .idle => true | _ => false) = true ∧
    (match s.pc 1 with | .idle => true | _ => false) = true ∧ ∃ e ∈ s.store.bufferCacheList,
      e.data.get 0 ≠ (s.store.disk e.sector).get 0 ∧ e.isDirty = false) (by decide) fun s hrun hs => ?_
  obtain ⟨h0, h1, e, he, hne, hclean⟩ := hs
  refine ⟨fun t => ?_, fun h => ?_⟩
  · by_cases ht0 : t = 0
    · exact ht0 ▸ hidle _ h0
    · by_cases ht1 : t = 1
      · exact ht1 ▸ hidle _ h1
      · rw [pc_of_run hrun (by simp [Ne.symm ht0, Ne.symm ht1])]
        rfl
  · have hdirty := h.2 e he fun heq => hne (congrArg (Arr.get · 0) heq)
    rw [hdirty] at hclean
    cases hclean

end Pintos.FileSys.CacheRace
