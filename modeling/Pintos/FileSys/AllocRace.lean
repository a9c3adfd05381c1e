import Pintos.FileSys.FreeMap
import Pintos.Lib.Run

/-!
# Concurrent allocations (`filesys/free-map.c`)

`free_map_allocate` finds a free sector with `bitmap_scan` and marks it with
`bitmap_set_multiple`; nothing keeps other threads out in between. This module
runs any number of threads that allocate and release single sectors, one of these
steps at a time.
-/

namespace Pintos.FileSys.AllocRace

open Lib Function List

/-! ## The steps -/

/-- Where a thread is in `free_map_allocate` or `free_map_release`. -/
inductive PC where
  | idle
  /-- `bitmap_scan` has returned the sector. -/
  | scanned (sector : Nat)
  /-- The sector is marked, `bitmap_write` is next. -/
  | flipped (sector : Nat)
  /-- The assertion of `free_map_release` has passed. -/
  | releasing (sector : Nat)

/-- `free_map`, the threads, and the sectors that have been returned to a caller
and that nobody has started to release since. -/
structure State where
  freeMap : List Bool
  pc : Nat → PC
  handedOut : List Nat

def State.goto (s : State) (t : Nat) (p : PC) : State := { s with pc := update s.pc t p }

inductive Act where
  | scan
  | flip
  | write (written : Bool)
  | assertAll (sector : Nat)
  | clear

/-- One step of thread `t`. Only sectors that have been handed out are released,
and each of them once. -/
def step (s : State) : Nat × Act → Option State
  | (t, .scan) =>
    match s.pc t with
    | .idle =>
      match bitmapScan s.freeMap 0 1 false with
      | some sector => some (s.goto t (.scanned sector))
      | none => some s
    | _ => none
  | (t, .flip) =>
    match s.pc t with
    | .scanned sector => do
      let freeMap ← bitmapSetMultiple s.freeMap sector 1 true
      some ({ s with freeMap := freeMap }.goto t (.flipped sector))
    | _ => none
  | (t, .write written) =>
    match s.pc t with
    | .flipped sector =>
      if written then some ({ s with handedOut := sector :: s.handedOut }.goto t .idle)
      else do
        let freeMap ← bitmapSetMultiple s.freeMap sector 1 false
        some ({ s with freeMap := freeMap }.goto t .idle)
    | _ => none
  | (t, .assertAll sector) =>
    match s.pc t with
    | .idle =>
      if sector ∈ s.handedOut ∧ bitmapAll s.freeMap sector 1 = some true then
        some ({ s with handedOut := s.handedOut.erase sector }.goto t (.releasing sector))
      else none
    | _ => none
  | (t, .clear) =>
    match s.pc t with
    | .releasing sector => do
      let freeMap ← bitmapSetMultiple s.freeMap sector 1 false
      some ({ s with freeMap := freeMap }.goto t .idle)
    | _ => none

/-- `bitmap_scan` is called while no thread is between its scan and its mark. -/
def scansAlone (s : State) : Nat × Act → Prop
  | (_, .scan) => ∀ t sector, s.pc t ≠ .scanned sector
  | _ => True

/-- No thread is inside, and the sectors handed out are marked and different. -/
structure Quiescent (s : State) : Prop where
  idle : ∀ t, s.pc t = .idle
  nodup : s.handedOut.Nodup
  marked : ∀ k ∈ s.handedOut, s.freeMap[k]? = some true

/-- The first three steps of one thread alone are `free_map_allocate` before there
is a file to write to. -/
theorem steps_of_freeMapAllocate (fm : FreeMapOps) {fs fs' : FS} {sector : Sector}
    (hfile : fs.freeMapFile = none) (hsize : fs.freeMap.length ≤ 4294967296)
    (h : freeMapAllocate fm fs 1 = some (some sector, fs')) (t : Nat) (handedOut : List Nat) :
    ∃ s, [(t, Act.scan), (t, .flip), (t, .write true)].foldlM step
        { freeMap := fs.freeMap, pc := fun _ => .idle, handedOut := handedOut } = some s ∧
      s.freeMap = fs'.freeMap ∧ s.handedOut = sector.toNat :: handedOut := by
  unfold freeMapAllocate at h
  cases hscan : bitmapScan fs.freeMap 0 1 false with
  | none =>
    rw [hscan] at h
    simp at h
  | some k =>
    rw [hscan] at h
    obtain ⟨freeMap, hset, h⟩ := Option.bind_eq_some_iff.mp h
    simp only [hfile, Option.some.injEq, Prod.mk.injEq] at h
    obtain ⟨hk, rfl⟩ := h
    have hlt : k < fs.freeMap.length := by
      rw [bitmapScan_one] at hscan
      exact (List.getElem?_eq_some_iff.mp (mem_freeBits.mp (List.mem_of_mem_head? hscan))).1
    have hnat : sector.toNat = k := by
      rw [← hk, UInt32.toNat_ofNat']
      exact Nat.mod_eq_of_lt (by omega)
    refine ⟨⟨freeMap, update (update (update (fun _ => .idle) t
      (.scanned k)) t (.flipped k)) t .idle, k :: handedOut⟩, ?_, rfl, by rw [hnat]⟩
    simp [step, hscan, hset, State.goto]

/-! ## Runs in which scans are alone -/

/-- The sector a thread has marked or is about to clear. -/
def PC.marked? : PC → Option Nat
  | .flipped sector => some sector
  | .releasing sector => some sector
  | _ => none

/-- Sectors in hand are marked, and no sector is in hand twice. A scanned sector is
clear, and at most one thread has one. -/
structure Inv (s : State) : Prop where
  nodup : s.handedOut.Nodup
  handedOut : ∀ k ∈ s.handedOut, s.freeMap[k]? = some true
  marked : ∀ t k, (s.pc t).marked? = some k → s.freeMap[k]? = some true ∧ k ∉ s.handedOut
  apart : ∀ t t' k, (s.pc t).marked? = some k → (s.pc t').marked? = some k → t = t'
  scanned : ∀ t k, s.pc t = .scanned k → s.freeMap[k]? = some false
  alone : ∀ t t' k k', s.pc t = .scanned k → s.pc t' = .scanned k' → t = t'

theorem Quiescent.inv {s : State} (h : Quiescent s) : Inv s := by
  refine ⟨h.nodup, h.marked, ?_, ?_, ?_, ?_⟩
  · intro t k hk
    rw [h.idle] at hk
    cases hk
  · intro t t' k hk
    rw [h.idle] at hk
    cases hk
  · intro t k hk
    rw [h.idle] at hk
    cases hk
  · intro t t' k k' hk
    rw [h.idle] at hk
    cases hk

section
variable {s s' : State} {t : Nat}

theorem goto_pc (s : State) (t u : Nat) (p : PC) :
    (s.goto t p).pc u = if u = t then p else s.pc u :=
  update_apply ..

variable {k u : Nat} {p q : PC}

theorem pc_of_goto (hq : (s.goto t p).pc u = q) (hne : p ≠ q) : u ≠ t ∧ s.pc u = q := by
  rw [goto_pc] at hq
  split at hq
  · exact absurd hq hne
  · rename_i hu
    exact ⟨hu, hq⟩

/-- A thread that goes to another place scans nothing there. -/
theorem Inv.alone_goto (h : Inv s) (hpc : s'.pc = s.pc) (hp : ∀ k, p ≠ .scanned k) (u u' k k' : Nat)
    (hk : (s'.goto t p).pc u = .scanned k) (hk' : (s'.goto t p).pc u' = .scanned k') : u = u' := by
  refine h.alone u u' k k' ?_ ?_
  · rw [← hpc]
    exact (pc_of_goto hk (hp k)).2
  · rw [← hpc]
    exact (pc_of_goto hk' (hp k')).2

theorem Inv.scan (h : Inv s) (hbit : s.freeMap[k]? = some false) (hidle : s.pc t = .idle)
    (halone : ∀ u sector, s.pc u ≠ .scanned sector) :
    Inv (s.goto t (.scanned k)) := by
  have hmarked : ∀ u, ((s.goto t (.scanned k)).pc u).marked? = (s.pc u).marked? := by
    intro u
    rw [goto_pc]
    split
    · rename_i hu
      rw [hu, hidle]
      rfl
    · rfl
  have honly : ∀ u q, (s.goto t (.scanned k)).pc u = .scanned q → u = t ∧ q = k := by
    intro u q hq
    rw [goto_pc] at hq
    split at hq
    · rename_i hu
      cases hq
      exact ⟨hu, rfl⟩
    · exact absurd hq (halone u q)
  refine ⟨h.nodup, h.handedOut, ?_, ?_, ?_, ?_⟩
  · intro u q hq
    rw [hmarked] at hq
    exact h.marked u q hq
  · intro u u' q hq hq'
    rw [hmarked] at hq hq'
    exact h.apart u u' q hq hq'
  · intro u q hq
    rw [(honly u q hq).2]
    exact hbit
  · intro u u' q q' hq hq'
    rw [(honly u q hq).1, (honly u' q' hq').1]

theorem Inv.flip (h : Inv s) (hk : s.pc t = .scanned k) :
    Inv ({ s with freeMap := s.freeMap.set k true }.goto t (.flipped k)) := by
  have hbit := h.scanned t k hk
  have hlt := (List.getElem?_eq_some_iff.mp hbit).1
  have hget := fun j => getElem?_set_bit true hlt j
  -- what was marked before is not `k`
  have hkeep : ∀ j : Nat, s.freeMap[j]? = some true → (s.freeMap.set k true)[j]? = some true := by
    intro j hj
    rw [hget]
    split
    · rfl
    · exact hj
  have hother : ∀ u q, u ≠ t → (s.pc u).marked? = some q → q ≠ k := by
    rintro u q - hq rfl
    rw [(h.marked u q hq).1] at hbit
    cases hbit
  refine ⟨h.nodup, fun j hj => hkeep j (h.handedOut j hj), ?_, ?_, ?_, h.alone_goto rfl nofun⟩
  · intro u q hq
    rw [goto_pc] at hq
    split at hq
    · cases hq
      refine ⟨?_, fun hmem => ?_⟩
      · show (s.freeMap.set k true)[k]? = some true
        rw [hget, if_pos rfl]
      · have := h.handedOut k hmem
        rw [hbit] at this
        cases this
    · exact ⟨hkeep q (h.marked u q hq).1, (h.marked u q hq).2⟩
  · intro u u' q hq hq'
    rw [goto_pc] at hq hq'
    split at hq
    · rename_i hu
      cases hq
      split at hq'
      · rename_i hu'
        rw [hu, hu']
      · rename_i hu'
        exact absurd rfl (hother u' k hu' hq')
    · rename_i hu
      split at hq'
      · cases hq'
        exact absurd rfl (hother u k hu hq)
      · exact h.apart u u' q hq hq'
  · -- no other thread has a scanned sector
    intro u q hq
    obtain ⟨hu, hq⟩ := pc_of_goto hq nofun
    exact absurd (h.alone u t q k hq hk) hu

/-- A thread gives up the sector it has marked: it is handed out. -/
theorem Inv.handOut (h : Inv s) (hk : s.pc t = .flipped k) :
    Inv ({ s with handedOut := k :: s.handedOut }.goto t .idle) := by
  have hkm : (s.pc t).marked? = some k := by
    rw [hk]
    rfl
  have hmarked : ∀ u q, (({ s with handedOut := k :: s.handedOut }.goto t .idle).pc u).marked? =
      some q → u ≠ t ∧ (s.pc u).marked? = some q := by
    intro u q hq
    rw [goto_pc] at hq
    split at hq
    · cases hq
    · rename_i hu
      exact ⟨hu, hq⟩
  refine ⟨nodup_cons.mpr ⟨(h.marked t k hkm).2, h.nodup⟩, ?_, ?_, ?_, ?_, h.alone_goto rfl nofun⟩
  · intro j hj
    rcases mem_cons.mp hj with rfl | hj
    · exact (h.marked t j hkm).1
    · exact h.handedOut j hj
  · intro u q hq
    obtain ⟨hu, hq'⟩ := hmarked u q hq
    refine ⟨(h.marked u q hq').1, fun hmem => ?_⟩
    rcases mem_cons.mp hmem with hqk | hmem
    · exact hu (h.apart u t k (hqk ▸ hq') hkm)
    · exact (h.marked u q hq').2 hmem
  · intro u u' q hq hq'
    exact h.apart u u' q (hmarked u q hq).2 (hmarked u' q hq').2
  · intro u q hq
    exact h.scanned u q (pc_of_goto hq nofun).2

theorem Inv.clear (h : Inv s) (hk : (s.pc t).marked? = some k) :
    Inv ({ s with freeMap := s.freeMap.set k false }.goto t .idle) := by
  obtain ⟨hbit, hnot⟩ := h.marked t k hk
  have hlt := (List.getElem?_eq_some_iff.mp hbit).1
  have hget := fun j => getElem?_set_bit false hlt j
  have hkeep : ∀ j, j ≠ k → (s.freeMap.set k false)[j]? = s.freeMap[j]? := by
    intro j hj
    rw [hget, if_neg hj]
  refine ⟨h.nodup, ?_, ?_, ?_, ?_, h.alone_goto rfl nofun⟩
  · intro j hj
    have hjk : j ≠ k := fun he => hnot (he ▸ hj)
    exact (hkeep j hjk).trans (h.handedOut j hj)
  · intro u q hq
    rw [goto_pc] at hq
    split at hq
    · cases hq
    · rename_i hu
      have hqk : q ≠ k := fun he => hu (h.apart u t k (he ▸ hq) hk)
      exact ⟨(hkeep q hqk).trans (h.marked u q hq).1, (h.marked u q hq).2⟩
  · intro u u' q hq hq'
    rw [goto_pc] at hq hq'
    split at hq
    · cases hq
    · split at hq'
      · cases hq'
      · exact h.apart u u' q hq hq'
  · intro u q hq
    have := h.scanned u q (pc_of_goto hq nofun).2
    show (s.freeMap.set k false)[q]? = some false
    rw [hget]
    split
    · rfl
    · exact this

theorem Inv.startRelease (h : Inv s) (hk : k ∈ s.handedOut) :
    Inv ({ s with handedOut := s.handedOut.erase k }.goto t (.releasing k)) := by
  have hsub : ∀ j, j ∈ s.handedOut.erase k → j ∈ s.handedOut := fun j hj => mem_of_mem_erase hj
  -- the sectors other threads have marked are not handed out
  have hother : ∀ u q, (s.pc u).marked? = some q → q ≠ k := by
    rintro u q hq rfl
    exact (h.marked u q hq).2 hk
  refine ⟨h.nodup.erase k, fun j hj => h.handedOut j (hsub j hj), ?_, ?_, ?_,
    h.alone_goto rfl nofun⟩
  · intro u q hq
    rw [goto_pc] at hq
    split at hq
    · cases hq
      exact ⟨h.handedOut k hk, h.nodup.not_mem_erase⟩
    · exact ⟨(h.marked u q hq).1, fun hmem => (h.marked u q hq).2 (hsub q hmem)⟩
  · intro u u' q hq hq'
    rw [goto_pc] at hq hq'
    split at hq
    · rename_i hu
      cases hq
      split at hq'
      · rename_i hu'
        rw [hu, hu']
      · exact absurd rfl (hother u' k hq')
    · split at hq'
      · cases hq'
        exact absurd rfl (hother u k hq)
      · exact h.apart u u' q hq hq'
  · intro u q hq
    exact h.scanned u q (pc_of_goto hq nofun).2

/-- **Every step keeps the invariant**, if scans are alone. -/
theorem step_inv {a : Nat × Act} (h : Inv s) (hok : scansAlone s a) (hstep : step s a = some s') :
    Inv s' := by
  obtain ⟨t, a⟩ := a
  cases a with
  | scan =>
    simp only [step] at hstep
    split at hstep
    · rename_i hidle
      split at hstep
      · rename_i k hscan
        cases hstep
        rw [bitmapScan_one] at hscan
        exact h.scan (mem_freeBits.mp (List.mem_of_mem_head? hscan)) hidle hok
      · cases hstep
        exact h
    · cases hstep
  | flip =>
    simp only [step] at hstep
    split at hstep
    · rename_i k hk
      have hlt := (List.getElem?_eq_some_iff.mp (h.scanned t k hk)).1
      rw [bitmapSetMultiple_one true hlt] at hstep
      cases hstep
      exact h.flip hk
    · cases hstep
  | write written =>
    simp only [step] at hstep
    split at hstep
    · rename_i k hk
      have hkm : (s.pc t).marked? = some k := by
        rw [hk]
        rfl
      split at hstep
      · cases hstep
        exact h.handOut hk
      · have hlt := (List.getElem?_eq_some_iff.mp (h.marked t k hkm).1).1
        rw [bitmapSetMultiple_one false hlt] at hstep
        cases hstep
        exact h.clear hkm
    · cases hstep
  | assertAll k =>
    simp only [step] at hstep
    split at hstep
    · split at hstep
      · rename_i hk
        cases hstep
        exact h.startRelease hk.1
      · cases hstep
    · cases hstep
  | clear =>
    simp only [step] at hstep
    split at hstep
    · rename_i k hk
      have hkm : (s.pc t).marked? = some k := by
        rw [hk]
        rfl
      have hlt := (List.getElem?_eq_some_iff.mp (h.marked t k hkm).1).1
      rw [bitmapSetMultiple_one false hlt] at hstep
      cases hstep
      exact h.clear hkm
    · cases hstep

end

/-- **No sector is handed out twice** in a run in which nobody scans while another
thread is between its scan and its mark. -/
theorem handed_out_distinct_if_scans_alone {s0 s : State} {as : List (Nat × Act)}
    (h₀ : Quiescent s0) (hrun : Run step scansAlone s0 as s) : s.handedOut.Nodup :=
  (hrun.invariant (fun _ _ _ hi hok hs => step_inv hi hok hs) h₀.inv).nodup

def twoFree : State := ⟨[false, false], fun _ => .idle, []⟩

theorem twoFree_quiescent : Quiescent twoFree := ⟨fun _ => rfl, nodup_nil, by simp [twoFree]⟩

/-- A second thread scans when the first one has marked its sector. -/
theorem handed_out_distinct_if_scans_alone_two_threads : ∃ s, Run step scansAlone twoFree
    [(0, .scan), (0, .flip), (1, .scan), (0, .write true), (1, .flip), (1, .write true)] s ∧
      s.handedOut = [1, 0] ∧ s.handedOut.Nodup := by
  have h0 : ∀ t sector, twoFree.pc t ≠ .scanned sector := by
    simp [twoFree]
  have h2 : ∀ t sector, ((twoFree.goto 0 (.scanned 0)).goto 0 (.flipped 0)).pc t ≠
      .scanned sector := by
    intro t sector
    rw [goto_pc, goto_pc]
    split <;> simp [twoFree]
  have hrun : Run step scansAlone twoFree ([] ++ [(0, .scan)] ++ [(0, .flip)] ++ [(1, .scan)] ++
      [(0, .write true)] ++ [(1, .flip)] ++ [(1, .write true)]) _ :=
    .snoc (.snoc (.snoc (.snoc (.snoc (.snoc .nil h0 rfl) trivial rfl) h2 rfl) trivial rfl)
      trivial rfl) trivial rfl
  exact ⟨_, hrun, rfl, handed_out_distinct_if_scans_alone twoFree_quiescent hrun⟩

/-- Both threads scan before either marks: the same sector is handed out twice. -/
theorem two_threads_get_one_sector : ∃ s, Quiescent twoFree ∧
    Run step (fun _ _ => True) twoFree
      [(0, .scan), (1, .scan), (0, .flip), (0, .write true), (1, .flip), (1, .write true)] s ∧
    ¬ s.handedOut.Nodup := by
  simp only [exists_and_left]
  exact ⟨twoFree_quiescent, by decide⟩

end Pintos.FileSys.AllocRace
