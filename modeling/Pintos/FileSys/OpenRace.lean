import Pintos.FileSys.Inode
import Pintos.Lib.Run
import Mathlib.Data.List.Nodup

/-!
# Concurrent opens (`filesys/inode.c`)

`inode_open` searches the list of open inodes and, if the sector is not there,
allocates a struct, puts it into the list and only then reads its fields from the
disk; no lock is held. This module runs any number of threads that open and close
inodes. A thread can be interrupted in each `malloc` and in `disk_read`.
-/

namespace Pintos.FileSys.OpenRace

open Lib Function List Option

/-! ## The steps -/

/-- The fields of `struct inode` that `inode_open` and `inode_close` use. `loaded`
says whether those of `core` and `lengthShown` have been assigned from the disk;
no step reads it. -/
structure Struct where
  sector : Sector
  openCnt : Int
  core : InodeCore
  lengthShown : Int
  loaded : Bool

/-- Where a thread is in `inode_open` or `inode_close`. -/
inductive PC where
  | idle
  /-- In the first `malloc` of `inode_open`. -/
  | allocating (sector : Sector)
  /-- The struct is in the list; in the second `malloc`. -/
  | published (a : Nat)
  /-- In `disk_read`. -/
  | reading (a : Nat)
  /-- The struct is out of the list; in the `malloc` of `inode_close`. -/
  | closing (a : Nat)

/-- A struct is known by its address. `refs` are the pointers that `inode_open`
has returned and that have not been closed; `returns` records for every return
whether the fields of the struct were loaded at that moment. -/
structure State where
  disk : Disk
  heap : Nat → Option Struct
  openInodes : List Nat
  pc : Nat → PC
  refs : List Nat
  returns : List (Nat × Bool)

namespace State

def goto (s : State) (t : Nat) (p : PC) : State := { s with pc := update s.pc t p }

def assign (s : State) (a : Nat) (x : Struct) : State :=
  { s with heap := update s.heap a (some x) }

def giveRef (s : State) (a : Nat) (loaded : Bool) : State :=
  { s with refs := a :: s.refs, returns := (a, loaded) :: s.returns }

/-- The search of `inode_open` through the list of open inodes. -/
def find (s : State) (sector : Sector) : Option Nat :=
  s.openInodes.find? fun a => (s.heap a).any fun x => x.sector = sector

end State

inductive Act where
  | search (sector : Sector)
  | publish (a : Nat) (junk : InodeCore)
  | startRead
  | finishRead
  | close (a : Nat)
  | storeBack (unused : Nat → UInt32)

/-- One step of thread `t`. `malloc` returns any address that is not in use; only
pointers that have been returned are closed, and each of them once. -/
def step (s : State) : Nat × Act → Option State
  | (t, .search sector) =>
    match s.pc t with
    | .idle =>
      match s.find sector with
      | some a => do
        let x ← s.heap a
        some ((s.assign a { x with openCnt := x.openCnt + 1 }).giveRef a x.loaded)
      | none => some (s.goto t (.allocating sector))
    | _ => none
  | (t, .publish a junk) =>
    match s.pc t with
    | .allocating sector =>
      if (s.heap a).isNone then
        let x : Struct :=
          { sector := sector, openCnt := 1, core := junk, lengthShown := 0, loaded := false }
        some (({ s with openInodes := a :: s.openInodes }.assign a x).goto t (.published a))
      else none
    | _ => none
  | (t, .startRead) =>
    match s.pc t with
    | .published a => some (s.goto t (.reading a))
    | _ => none
  | (t, .finishRead) =>
    match s.pc t with
    | .reading a => do
      let x ← s.heap a
      let core := decodeInode (s.disk x.sector)
      some (((s.assign a { x with core := core, lengthShown := core.length, loaded := true }).giveRef
        a true).goto t .idle)
    | _ => none
  | (t, .close a) =>
    match s.pc t with
    | .idle =>
      if a ∈ s.refs then do
        let x ← s.heap a
        let s := { s with refs := s.refs.erase a }.assign a { x with openCnt := x.openCnt - 1 }
        if x.openCnt - 1 = 0 then
          some ({ s with openInodes := s.openInodes.erase a }.goto t (.closing a))
        else some s
      else none
    | _ => none
  | (t, .storeBack unused) =>
    match s.pc t with
    | .closing a => do
      let x ← s.heap a
      some ({ s with
        disk := diskWrite s.disk x.sector (encodeInode x.core unused)
        heap := update s.heap a none }.goto t .idle)
    | _ => none

def State.opening (s : State) (t : Nat) : Option Sector :=
  match s.pc t with
  | .allocating sector => some sector
  | .published a => (s.heap a).map Struct.sector
  | .reading a => (s.heap a).map Struct.sector
  | _ => none

/-- `inode_open` is called on a sector that no thread is in the middle of opening. -/
def searchesAlone (s : State) : Nat × Act → Prop
  | (_, .search sector) => ∀ t, s.opening t ≠ some sector
  | _ => True

/-- All references to one sector are to one struct, and no return was premature. -/
structure Agree (s : State) : Prop where
  valid : ∀ a ∈ s.refs, ∃ x, s.heap a = some x ∧ x.loaded = true
  same : ∀ a ∈ s.refs, ∀ b ∈ s.refs, ∀ x y, s.heap a = some x → s.heap b = some y →
    x.sector = y.sector → a = b
  loaded : ∀ r ∈ s.returns, r.2 = true

def start (disk : Disk) : State := ⟨disk, fun _ => none, [], fun _ => .idle, [], []⟩

/-! ## Runs in which searches are alone -/

/-- The struct a thread has published and not yet returned. -/
def PC.pending? : PC → Option Nat
  | .published a => some a
  | .reading a => some a
  | _ => none

/-- The listed structs are for different sectors. One that a thread is still
filling has no references and is known to that thread only; all others are loaded
and `openCnt` counts their references. -/
structure Inv (s : State) : Prop where
  nodup : s.openInodes.Nodup
  held : ∀ a ∈ s.openInodes, (s.heap a).isSome
  distinct : ∀ a ∈ s.openInodes, ∀ b ∈ s.openInodes, ∀ x y, s.heap a = some x →
    s.heap b = some y → x.sector = y.sector → a = b
  refs : ∀ a ∈ s.refs, a ∈ s.openInodes
  pending : ∀ t a, (s.pc t).pending? = some a →
    a ∈ s.openInodes ∧ a ∉ s.refs ∧ ∀ x, s.heap a = some x → x.openCnt = 1
  apart : ∀ t t' a, (s.pc t).pending? = some a → (s.pc t').pending? = some a → t = t'
  counted : ∀ a ∈ s.openInodes, (∀ t, (s.pc t).pending? ≠ some a) → ∀ x, s.heap a = some x →
    x.openCnt = s.refs.count a ∧ x.loaded = true
  fresh : ∀ t sector, s.pc t = .allocating sector → ∀ a ∈ s.openInodes, ∀ x, s.heap a = some x →
    x.sector ≠ sector
  alone : ∀ t t' sector, s.pc t = .allocating sector → s.pc t' = .allocating sector → t = t'
  closing : ∀ t a, s.pc t = .closing a → a ∉ s.openInodes ∧ (s.heap a).isSome
  closesAlone : ∀ t t' a, s.pc t = .closing a → s.pc t' = .closing a → t = t'
  returns : ∀ r ∈ s.returns, r.2 = true

theorem start_inv (disk : Disk) : Inv (start disk) := by
  constructor <;> simp [start, PC.pending?]

theorem Inv.agree {s : State} (h : Inv s) : Agree s := by
  refine ⟨fun a ha => ?_, fun a ha b hb => ?_, h.returns⟩
  · obtain ⟨x, hx⟩ := isSome_iff_exists.mp (h.held a (h.refs a ha))
    have hnot : ∀ t, (s.pc t).pending? ≠ some a := fun t ht => (h.pending t a ht).2.1 ha
    exact ⟨x, hx, (h.counted a (h.refs a ha) hnot x hx).2⟩
  · exact h.distinct a (h.refs a ha) b (h.refs b hb)

section
variable {s s' : State} {t : Nat}

variable {a : Nat} {x : Struct} {sector : Sector}

theorem opening_of_pending (hpc : (s.pc t).pending? = some a) (hx : s.heap a = some x) :
    s.opening t = some x.sector := by
  unfold State.opening
  cases hp : s.pc t <;> rw [hp] at hpc <;> cases hpc <;> simp [hx]

theorem find_some (h : s.find sector = some a) :
    a ∈ s.openInodes ∧ ∀ x, s.heap a = some x → x.sector = sector := by
  refine ⟨mem_of_find?_eq_some h, fun x hx => ?_⟩
  have hp := find?_some h
  rw [hx] at hp
  simpa using hp

theorem find_none (h : s.find sector = none) :
    ∀ a ∈ s.openInodes, ∀ x, s.heap a = some x → x.sector ≠ sector := by
  intro a ha x hx
  have hp := find?_eq_none.mp h a ha
  rw [hx] at hp
  simpa using hp

variable (h : Inv s)
include h

theorem Inv.hit (ha : a ∈ s.openInodes) (hx : s.heap a = some x)
    (hnot : ∀ u, (s.pc u).pending? ≠ some a) :
    Inv ((s.assign a { x with openCnt := x.openCnt + 1 }).giveRef a x.loaded) := by
  have hcnt := h.counted a ha hnot x hx
  cases h
  constructor <;> simp only [State.giveRef, State.assign, update_apply] <;> grind

/-- The sector is not listed and nobody else is opening it. -/
theorem Inv.miss (hnone : ∀ a ∈ s.openInodes, ∀ x, s.heap a = some x → x.sector ≠ sector)
    (hother : ∀ u, s.pc u ≠ .allocating sector) (hidle : s.pc t = .idle) :
    Inv (s.goto t (.allocating sector)) := by
  cases h
  constructor <;> simp only [State.goto, update_apply] <;> grind [PC.pending?]

theorem Inv.publish (hpc : s.pc t = .allocating sector) (hfree : s.heap a = none)
    (hsector : x.sector = sector) (hcnt : x.openCnt = 1) :
    Inv (({ s with openInodes := a :: s.openInodes }.assign a x).goto t (.published a)) := by
  cases h
  constructor <;> simp only [State.goto, State.assign, update_apply] <;> grind [PC.pending?]

theorem Inv.startRead (hpc : s.pc t = .published a) :
    Inv (s.goto t (.reading a)) := by
  cases h
  constructor <;> simp only [State.goto, update_apply] <;> grind [PC.pending?]

theorem Inv.finishRead {y : Struct} (hpc : s.pc t = .reading a) (hx : s.heap a = some x)
    (hsector : y.sector = x.sector) (hcnt : y.openCnt = x.openCnt) (hloaded : y.loaded = true) :
    Inv (((s.assign a y).giveRef a true).goto t .idle) := by
  cases h
  constructor <;> simp only [State.goto, State.giveRef, State.assign, update_apply] <;>
    grind [PC.pending?]

theorem Inv.dropRef (ha : a ∈ s.refs) (hx : s.heap a = some x) :
    Inv ({ s with refs := s.refs.erase a }.assign a { x with openCnt := x.openCnt - 1 }) := by
  have hnot : ∀ u, (s.pc u).pending? ≠ some a := fun u hu => (h.pending u a hu).2.1 ha
  cases h
  constructor <;> simp only [State.assign, update_apply] <;> grind

theorem Inv.lastClose (ha : a ∈ s.refs) (hx : s.heap a = some x) (hcnt : x.openCnt - 1 = 0)
    (hidle : s.pc t = .idle) :
    Inv ({ ({ s with refs := s.refs.erase a }.assign a { x with openCnt := x.openCnt - 1 }) with
      openInodes := s.openInodes.erase a }.goto t (.closing a)) := by
  have hnot : ∀ u, (s.pc u).pending? ≠ some a := fun u hu => (h.pending u a hu).2.1 ha
  have hlisted := h.refs a ha
  have hone : s.refs.count a = 1 := by
    have := (h.counted a hlisted hnot x hx).1
    omega
  have hgone : a ∉ s.refs.erase a := by
    rw [← count_pos_iff, count_erase_self]
    omega
  cases h
  constructor <;> simp only [State.goto, State.assign, update_apply] <;>
    grind [PC.pending?, List.Nodup.mem_erase_iff, List.Nodup.erase]

theorem Inv.storeBack (hpc : s.pc t = .closing a) (disk : Disk) :
    Inv ({ s with disk := disk, heap := update s.heap a none }.goto t .idle) := by
  have hout := (h.closing t a hpc).1
  cases h
  constructor <;> simp only [State.goto, update_apply] <;> grind [PC.pending?]

/-- **Every step keeps the invariant**, if searches are alone. -/
theorem step_inv {a : Nat × Act} (hok : searchesAlone s a) (hstep : step s a = some s') :
    Inv s' := by
  obtain ⟨t, a⟩ := a
  cases a with
  | search sector =>
    simp only [step] at hstep
    split at hstep
    · rename_i hidle
      split at hstep
      · rename_i a hfind
        obtain ⟨x, hx, hstep⟩ := bind_eq_some_iff.mp hstep
        cases hstep
        obtain ⟨ha, hsector⟩ := find_some hfind
        refine h.hit ha hx fun u hu => hok u ?_
        rw [opening_of_pending hu hx, hsector x hx]
      · rename_i hfind
        cases hstep
        refine h.miss (find_none hfind) (fun u hu => hok u ?_) hidle
        rw [State.opening, hu]
    · cases hstep
  | publish a junk =>
    simp only [step] at hstep
    split at hstep
    · rename_i sector hpc
      split at hstep
      · rename_i hfree
        cases hstep
        exact h.publish hpc (isNone_iff_eq_none.mp hfree) rfl rfl
      · cases hstep
    · cases hstep
  | startRead =>
    simp only [step] at hstep
    split at hstep
    · rename_i a hpc
      cases hstep
      exact h.startRead hpc
    · cases hstep
  | finishRead =>
    simp only [step] at hstep
    split at hstep
    · rename_i a hpc
      obtain ⟨x, hx, hstep⟩ := bind_eq_some_iff.mp hstep
      cases hstep
      exact h.finishRead hpc hx rfl rfl rfl
    · cases hstep
  | close a =>
    simp only [step] at hstep
    split at hstep
    · rename_i hidle
      split at hstep
      · rename_i ha
        obtain ⟨x, hx, hstep⟩ := bind_eq_some_iff.mp hstep
        split at hstep
        · rename_i hcnt
          cases hstep
          exact h.lastClose ha hx hcnt hidle
        · cases hstep
          exact h.dropRef ha hx
      · cases hstep
    · cases hstep
  | storeBack unused =>
    simp only [step] at hstep
    split at hstep
    · rename_i a hpc
      obtain ⟨x, hx, hstep⟩ := bind_eq_some_iff.mp hstep
      cases hstep
      exact h.storeBack hpc _
    · cases hstep

end

/-- **Overlapping opens of a sector get one struct, and it is loaded**, in a run in
which `inode_open` is never called on a sector that another thread is opening. -/
theorem opens_agree_if_searches_alone {disk : Disk} {s : State} {as : List (Nat × Act)}
    (hrun : Run step searchesAlone (start disk) as s) : Agree s :=
  (hrun.invariant (fun _ _ _ hi hok hs => step_inv hi hok hs) (start_inv disk)).agree

def zeroCore : InodeCore := decodeInode (Arr.const 0)

/-- Two threads open one sector, the second when the first has returned. -/
theorem opens_agree_if_searches_alone_two_threads : ∃ s,
    Run step searchesAlone (start fun _ => Arr.const 0)
      [(0, .search 5), (0, .publish 10 zeroCore), (0, .startRead), (0, .finishRead),
        (1, .search 5)] s ∧ s.refs = [10, 10] ∧ Agree s := by
  have hopen : ∀ (s : State) (t : Nat), s.pc t = .idle → s.opening t ≠ some 5 := by
    intro s t ht
    rw [State.opening, ht]
    simp
  have hrun : Run step searchesAlone (start fun _ => Arr.const 0) ([] ++ [(0, .search 5)] ++
      [(0, .publish 10 zeroCore)] ++ [(0, .startRead)] ++ [(0, .finishRead)] ++ [(1, .search 5)])
      _ :=
    .snoc (.snoc (.snoc (.snoc (.snoc .nil (fun t => hopen _ t rfl) rfl) trivial rfl) trivial rfl)
      trivial rfl) (fun t => hopen _ t (by
        simp only [State.goto, State.giveRef, State.assign, update_apply, start]
        split <;> rfl)) rfl
  exact ⟨_, hrun, rfl, opens_agree_if_searches_alone hrun⟩

/-- Both threads search before either has published: the sector has two structs. -/
theorem two_opens_two_structs : ∃ s,
    Run step (fun _ _ => True) (start fun _ => Arr.const 0)
      [(0, .search 5), (1, .search 5), (0, .publish 10 zeroCore), (0, .startRead),
        (0, .finishRead), (1, .publish 11 zeroCore), (1, .startRead), (1, .finishRead)] s ∧
    ¬ Agree s := by
  refine Run.exists_guarded (fun s => s.refs = [11, 10] ∧ (s.heap 10).map Struct.sector = some 5 ∧
    (s.heap 11).map Struct.sector = some 5) (by decide) fun s hrun hs h => ?_
  obtain ⟨hrefs, h10, h11⟩ := hs
  obtain ⟨x, hx, hxs⟩ := map_eq_some_iff.mp h10
  obtain ⟨y, hy, hys⟩ := map_eq_some_iff.mp h11
  have := h.same 10 (by simp [hrefs]) 11 (by simp [hrefs]) x y hx hy (hxs.trans hys.symm)
  omega

-- a search that falls between the two halves of another open returns an unfilled struct
example : (([(0, .search 5), (0, .publish 10 zeroCore), (0, .startRead), (1, .search 5)] :
    List (Nat × Act)).foldlM step (start fun _ => Arr.const 0)).map State.returns =
      some [(10, false)] := by decide

end Pintos.FileSys.OpenRace
