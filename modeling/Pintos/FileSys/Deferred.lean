import Pintos.FileSys.Format

/-!
# Deferred deletion

The machine of this module performs `inode_open`, `inode_reopen`, `inode_close`,
`inode_remove` and the inode part of `filesys_create`, and counts the references
that its callers hold.

A creation that finds too few free sectors ends this: `inode_create` then returns
true for an inode whose pointers are whatever its memory held before, and the
last close of that inode after a removal gives back sectors that are not its
own.
-/

namespace Pintos.FileSys.Deferred

open Lib Function FS

/-! ## The machine -/

inductive Act where
  | open (s : Sector)
  | reopen (s : Sector)
  | close (s : Sector)
  | remove (s : Sector)
  | create (initialSize : Int) (isDir : Bool)

/-- The file system and what its callers know: the references they hold, the
inodes they have called `inode_remove` on since those were created, and each
inode as it was when it was closed last. -/
structure State where
  fs : FS
  refs : Sector → Nat
  removed : Sector → Bool
  kept : Sector → Option InodeCore

/-- The references to an inode. `free_map_file` is one of them. -/
def State.outstanding (st : State) (s : Sector) : Nat :=
  st.refs s + if s = FREE_MAP_SECTOR then 1 else 0

/-- The pointer that the call is given is one that the caller holds. -/
def held (st : State) : Act → Bool
  | .reopen s | .close s | .remove s => 0 < st.refs s
  | .open _ | .create _ _ => true

def step (st : State) (a : Act) : Option State :=
  if held st a then
    match a with
    | .open s =>
      some { st with fs := inodeOpen st.fs s, refs := update st.refs s (st.refs s + 1) }
    | .reopen s => do
      let fs ← inodeReopen st.fs s
      some { st with fs := fs, refs := update st.refs s (st.refs s + 1) }
    | .close s => do
      let ino ← st.fs.inode? s
      let fs ← inodeClose (freeMapOps 1) st.fs s
      some { st with
        fs := fs
        refs := update st.refs s (st.refs s - 1)
        kept := update st.kept s (some ino.toInodeCore) }
    | .remove s => do
      let fs ← inodeRemove st.fs s
      some { st with fs := fs, removed := update st.removed s true }
    | .create initialSize isDir => do
      let (created, fs) ← createFile st.fs initialSize isDir
      match created with
      | none => some { st with fs := fs }
      | some s =>
        some { st with
          fs := fs
          removed := update st.removed s false
          kept := update st.kept s none }
  else none

/-- After `filesys_init`: nothing is open but the file of the free map. -/
def start (fs : FS) : State where
  fs := fs
  refs := fun _ => 0
  removed := fun _ => false
  kept := fun _ => none

/-! ## What is expected of it -/

/-- One struct for each sector that is referred to, with the number of its
references. -/
structure Counted (st : State) : Prop where
  unique : OpenNodup st.fs
  opened : ∀ s, (∃ ino, st.fs.inode? s = some ino) ↔ 0 < st.outstanding s
  count : ∀ s ino, st.fs.inode? s = some ino → ino.openCnt = st.outstanding s

def SameStruct (st st' : State) (s : Sector) : Prop :=
  ∀ ino, st.fs.inode? s = some ino →
    st'.fs.openInodes.map Inode.sector = st.fs.openInodes.map Inode.sector ∧
      st'.fs.inode? s = some { ino with openCnt := ino.openCnt + 1 }

/-- A struct that is made anew holds what the last close left. -/
def SeesKept (st st' : State) (s : Sector) : Prop :=
  st.fs.inode? s = none → ∀ core, st.kept s = some core →
    ∃ ino, st'.fs.inode? s = some ino ∧ ino.toInodeCore = core

/-- The close of a removed inode's last reference frees its sectors, that of another
inode's stores it, and nothing else is released. -/
structure ClosesRight (st st' : State) (s : Sector) : Prop where
  keeps : ∀ l ∈ st.fs.taken, (l.1 = s → 1 < st.outstanding s ∨ st.removed s = false) →
    st'.fs.isUsed (st.fs.place l)
  frees : st.outstanding s = 1 → st.removed s = true →
    ∀ l ∈ st.fs.taken, l.1 = s → st'.fs.isFree (st.fs.place l)
  stores : st.outstanding s = 1 → st.removed s = false →
    ∃ ino, st.fs.inode? s = some ino ∧ decodeInode (st'.fs.store.disk s) = ino.toInodeCore

def Behaves (st st' : State) : Act → Prop
  | .open s => SameStruct st st' s ∧ SeesKept st st' s
  | .reopen s => SameStruct st st' s
  | .close s => ClosesRight st st' s
  | .remove _ | .create _ _ => ∀ u, st.fs.isUsed u → st'.fs.isUsed u

/-- What a call has to meet: a sector that is opened holds an inode; a creation
finds no free sector at all, or enough of them, none of which is in the cache,
and a file that fills at most one second-level block. -/
def Good (st : State) : Act → Prop
  | .open s => s ∈ st.fs.live
  | .create initialSize _ =>
    freeBits st.fs.freeMap = [] ∨
      0 ≤ initialSize ∧ SameSecond 0 (bytesToSectors (cappedLength initialSize)) ∧
        Budget st.fs (blocksFor (bytesToSectors (cappedLength initialSize)) + 1)
  | .reopen _ | .close _ | .remove _ => True

/-- The file system after `filesys_init`. -/
structure Booted (d0 : Disk) (fs : FS) : Prop where
  mounted : Mounted d0 fs
  unlocked : ∀ i, fs.locked i = false
  opened : ∃ ino, fs.inode? FREE_MAP_SECTOR = some ino ∧ ino.openCnt = 1 ∧ ino.removed = false
  closed : ∀ i, i ≠ FREE_MAP_SECTOR → fs.inode? i = none

theorem Booted.of_formatted {d0 : Disk} {fs : FS} {m : Nat} (h : Formatted d0 fs m) :
    Booted d0 fs :=
  { h with }

/-! ## The invariant -/

structure Inv (d0 : Disk) (st : State) : Prop where
  mounted : Mounted d0 st.fs
  unlocked : ∀ i, st.fs.locked i = false
  count : ∀ s, st.fs.openCount s = st.outstanding s
  removed : ∀ s ino, st.fs.inode? s = some ino → ino.removed = st.removed s
  alive : ∀ s ∈ st.fs.live, st.fs.inode? s = none → st.removed s = false
  kept : ∀ s ∈ st.fs.live, st.fs.inode? s = none → ∀ core, st.kept s = some core →
    st.fs.node s = core

section
variable {d0 : Disk} {st st' : State} {s : Sector} {ino : Inode}

theorem Booted.inv {fs : FS} (h : Booted d0 fs) : Inv d0 (start fs) := by
  obtain ⟨ino, hino, hcnt, hrem⟩ := h.opened
  refine ⟨h.mounted, h.unlocked, fun s => ?_, fun s e he => ?_, fun _ _ _ => rfl, ?_⟩
  · by_cases hs : s = FREE_MAP_SECTOR
    · subst hs
      exact (openCount_of_open hino).trans hcnt
    · rw [State.outstanding, if_neg hs]
      exact openCount_of_closed (h.closed s hs)
  · by_cases hs : s = FREE_MAP_SECTOR
    · subst hs
      cases hino.symm.trans he
      exact hrem
    · cases (h.closed s hs).symm.trans he
  · intro s _ _ core hcore
    cases hcore

theorem Inv.struct (h : Inv d0 st) (hs : 0 < st.outstanding s) :
    ∃ ino, st.fs.inode? s = some ino ∧ ino.openCnt = st.outstanding s := by
  have hc := h.count s
  cases hino : st.fs.inode? s with
  | none =>
    rw [openCount_of_closed hino] at hc
    omega
  | some ino =>
    rw [openCount_of_open hino] at hc
    exact ⟨ino, rfl, hc⟩

theorem Inv.counted (h : Inv d0 st) : Counted st := by
  refine ⟨h.mounted.vol.nodup, fun s => ⟨?_, ?_⟩, fun s ino hino => ?_⟩
  · rintro ⟨ino, hino⟩
    have hc := h.count s
    have hpos := (h.mounted.vol.opened s ino hino).2.count
    rw [openCount_of_open hino] at hc
    omega
  · intro hs
    obtain ⟨ino, hino, -⟩ := h.struct hs
    exact ⟨ino, hino⟩
  · rw [← h.count s, openCount_of_open hino]

/-! ## Every call keeps it -/

/-- A call that changes nothing but open counts. A struct that is gone afterwards
was not there before, or was the last of an inode that is not removed. -/
theorem Inv.of_quiet (h : Inv d0 st) (hm : Mounted d0 st'.fs) (hq : Quiet st.fs st'.fs)
    (hcount : ∀ j, st'.fs.openCount j = st'.outstanding j) (hrem : st'.removed = st.removed)
    (hgone : ∀ j ∈ st.fs.live, st'.fs.inode? j = none →
      (st.fs.inode? j = none ∧ st'.kept j = st.kept j) ∨
      (st.removed j = false ∧ st'.kept j = some (st.fs.node j))) : Inv d0 st' := by
  refine ⟨hm, fun i => by rw [hq.locked]; exact h.unlocked i, hcount, ?_, ?_, ?_⟩
  · intro j e he
    have hj : j ∈ st.fs.live := hq.live ▸ (hm.vol.opened j e he).1
    have hiff : e.removed = true ↔ st.fs.isRemoved j := by
      rw [← hq.removed j]
      refine ⟨fun hr => ⟨e, he, hr⟩, ?_⟩
      rintro ⟨e', he', hr⟩
      cases he.symm.trans he'
      exact hr
    rw [hrem, Bool.eq_iff_iff, hiff]
    cases hino : st.fs.inode? j with
    | none => simp [FS.isRemoved, hino, h.alive j hj hino]
    | some ino => simp [FS.isRemoved, hino, h.removed j ino hino]
  · rw [hq.live, hrem]
    intro j hj hnone
    rcases hgone j hj hnone with ⟨hold, -⟩ | ⟨hr, -⟩
    · exact h.alive j hj hold
    · exact hr
  · rw [hq.live]
    intro j hj hnone core hcore
    rw [hq.node j hj]
    rcases hgone j hj hnone with ⟨hold, hk⟩ | ⟨-, hk⟩
    · exact h.kept j hj hold core (hk ▸ hcore)
    · rw [hk] at hcore
      exact Option.some.inj hcore

theorem outstanding_more (st : State) (s j : Sector) :
    ({ st with refs := update st.refs s (st.refs s + 1) } : State).outstanding j =
      st.outstanding j + if j = s then 1 else 0 := by
  unfold State.outstanding
  by_cases hj : j = s
  · subst hj
    simp
    omega
  · simp [hj]

theorem Inv.reference (h : Inv d0 st) (hs : s ∈ st.fs.live)
    (hst : st' = { st with fs := inodeOpen st.fs s,
                           refs := update st.refs s (st.refs s + 1) }) :
    Inv d0 st' ∧ SameStruct st st' s ∧ SeesKept st st' s := by
  obtain ⟨hm, hop⟩ := h.mounted.inodeOpen hs (fun _ => h.unlocked s)
  refine ⟨h.of_quiet (by rw [hst]; exact hm) (by rw [hst]; exact hop.quiet) ?_ (by rw [hst]) ?_,
    ?_, ?_⟩
  · intro j
    have hmore : st'.outstanding j = st.outstanding j + if j = s then 1 else 0 := by
      rw [hst]
      exact outstanding_more st s j
    rw [hmore, hst, hop.count j, h.count j]
    split <;> rfl
  · intro j hj hnone
    rw [hst] at hnone ⊢
    by_cases hjs : j = s
    · obtain ⟨e, he⟩ := hop.struct
      rw [hjs, he] at hnone
      cases hnone
    · exact Or.inl ⟨(hop.others j hjs).symm.trans hnone, rfl⟩
  · intro ino hino
    obtain ⟨ino', hino'⟩ : ∃ e : Inode, e = { ino with openCnt := ino.openCnt + 1 } := ⟨_, rfl⟩
    have hsec : ino'.sector = s := by
      rw [hino', ← inode?_sector hino]
    have heq : st'.fs = st.fs.setInode ino' := by
      rw [hst, hino']
      simp only [inodeOpen, hino]
    rw [heq, inode?_setInode hino hsec, if_pos rfl, hino']
    exact ⟨map_key_replace, rfl⟩
  · intro hclosed core hcore
    obtain ⟨e, he⟩ := hop.struct
    refine ⟨e, by rw [hst]; exact he, ?_⟩
    rw [← node_of_open he, hop.quiet.node s hs]
    exact h.kept s hs hclosed core hcore

variable {fs' : FS}

theorem outstanding_less (st : State) (hs : 0 < st.refs s) (j : Sector) :
    (({ st with refs := update st.refs s (st.refs s - 1) } : State).outstanding j : Int) =
      st.outstanding j - if j = s then 1 else 0 := by
  unfold State.outstanding
  by_cases hj : j = s
  · subst hj
    simp
    omega
  · simp [hj]

section
variable (h : Inv d0 st)
include h

section
variable (hs : 0 < st.refs s)
include hs

/-- A close that is not the last. -/
theorem Inv.close_shared (hino : st.fs.inode? s = some ino) (hcnt : ino.openCnt = st.outstanding s)
    (hmore : 1 < st.outstanding s) :
    ∃ fs', inodeClose (freeMapOps 1) st.fs s = some fs' ∧
      Inv d0 { st with
        fs := fs'
        refs := update st.refs s (st.refs s - 1)
        kept := update st.kept s (some ino) } ∧
      ∀ u, st.fs.isUsed u → fs'.isUsed u := by
  obtain ⟨fs', heq, hvol, hcl, hstill⟩ :=
    inodeClose_shared (freeMapOps 1) h.mounted.vol hino (by omega)
  have hopen : ∃ e, fs'.inode? FREE_MAP_SECTOR = some e := by
    by_cases h0 : FREE_MAP_SECTOR = s
    · rw [h0]
      exact ⟨_, hstill⟩
    · rw [hcl.others _ h0]
      exact h.mounted.opened
  refine ⟨fs', heq, h.of_quiet (h.mounted.of_quiet hvol hcl.quiet hopen) hcl.quiet ?_ rfl ?_,
    hcl.quiet.calm.used⟩
  · intro j
    refine Eq.trans ?_ (outstanding_less st hs j).symm
    rw [← h.count j]
    exact hcl.count j
  · intro j _ hnone
    by_cases hjs : j = s
    · rw [hjs, hstill] at hnone
      cases hnone
    · exact Or.inl ⟨(hcl.others j hjs).symm.trans hnone, update_of_ne hjs ..⟩

/-- The last close of an inode that is not removed. -/
theorem Inv.close_last (hino : st.fs.inode? s = some ino) (hcnt : ino.openCnt = 1)
    (h0 : s ≠ FREE_MAP_SECTOR) (hrem : st.removed s = false) :
    ∃ fs', inodeClose (freeMapOps 1) st.fs s = some fs' ∧
      Inv d0 { st with
        fs := fs'
        refs := update st.refs s (st.refs s - 1)
        kept := update st.kept s (some ino) } ∧
      (∀ u, st.fs.isUsed u → fs'.isUsed u) ∧
      decodeInode (fs'.store.disk s) = ino := by
  have hlive := (h.mounted.vol.opened s ino hino).1
  obtain ⟨fs', heq, hvol, hcl, hgone⟩ := inodeClose_last (freeMapOps 1) h.mounted.vol hino hcnt
    ((h.removed s ino hino).trans hrem)
  have hopen : ∃ e, fs'.inode? FREE_MAP_SECTOR = some e := by
    rw [hcl.others _ h0.symm]
    exact h.mounted.opened
  have hnode := node_of_open hino
  refine ⟨fs', heq, h.of_quiet (h.mounted.of_quiet hvol hcl.quiet hopen) hcl.quiet ?_ rfl ?_,
    hcl.quiet.calm.used, ?_⟩
  · intro j
    refine Eq.trans ?_ (outstanding_less st hs j).symm
    rw [← h.count j]
    exact hcl.count j
  · intro j _ hnone
    by_cases hjs : j = s
    · subst hjs
      refine Or.inr ⟨hrem, ?_⟩
      show update st.kept j (some ino) j = _
      rw [update_self, hnode]
    · exact Or.inl ⟨(hcl.others j hjs).symm.trans hnone, update_of_ne hjs ..⟩
  · -- what is on the disk is what the next `inode_open` decodes
    have hlive' : s ∈ fs'.live := hcl.quiet.live ▸ hlive
    have hfresh := hvol.direct (s, none) (mem_taken_none.mpr hlive') trivial
    rw [← hnode, ← hcl.quiet.node s hlive, node_of_closed hgone]
    exact congrArg decodeInode (view_of_not_cached hfresh).symm

theorem Inv.close_removed (hino : st.fs.inode? s = some ino) (hcnt : ino.openCnt = 1)
    (h0 : s ≠ FREE_MAP_SECTOR) (hrem : st.removed s = true) :
    ∃ fs', inodeClose (freeMapOps 1) st.fs s = some fs' ∧
      Inv d0 { st with
        fs := fs'
        refs := update st.refs s (st.refs s - 1)
        kept := update st.kept s (some ino) } ∧
      ∀ l ∈ st.fs.taken, if l.1 = s then fs'.isFree (st.fs.place l) else
        fs'.isUsed (st.fs.place l) := by
  have hlive := (h.mounted.vol.opened s ino hino).1
  obtain ⟨fs', heq, hm, he, hused⟩ := inodeClose_removed h.mounted (h.unlocked _) hino h0 hcnt
    ((h.removed s ino hino).trans hrem)
  have hready := h.mounted.mapReady
  have hcount : st.outstanding s = 1 := by
    have := h.count s
    rw [openCount_of_open hino] at this
    omega
  refine ⟨fs', heq, ⟨hm, fun i => by rw [he.locked]; exact h.unlocked i, ?_, ?_, ?_, ?_⟩, ?_⟩
  · intro j
    refine Eq.trans ?_ (outstanding_less st hs j).symm
    by_cases hjs : j = s
    · subst hjs
      rw [if_pos rfl, hcount]
      exact openCount_of_closed (he.gone j rfl)
    · rw [if_neg hjs, Int.sub_zero, ← h.count j]
      exact openCount_congr (he.find j hjs)
  · intro j e hj
    by_cases hjs : j = s
    · rw [hjs, he.gone s rfl] at hj
      cases hj
    · exact h.removed j e ((he.find j hjs).symm.trans hj)
  · intro j hj hnone
    rw [he.live] at hj
    exact h.alive j hj.1 ((he.find j hj.2).symm.trans hnone)
  · intro j hj hnone core hcore
    rw [he.live] at hj
    rw [he.node h.mounted.vol hready hj.1 hj.2]
    refine h.kept j hj.1 ((he.find j hj.2).symm.trans hnone) core ?_
    rw [← hcore]
    exact (update_of_ne hj.2 ..).symm
  · intro l hl
    have hmem := h.mounted.vol.mem_releasedSectors hlive (u := st.fs.place l)
    have hbefore := h.mounted.vol.used l hl
    by_cases hls : l.1 = s
    · rw [if_pos hls]
      have hlt : (st.fs.place l).toNat < fs'.freeMap.length := he.size ▸ hbefore.lt
      refine (isFree_or_isUsed hlt).resolve_right fun hu => ?_
      exact ((hused _).mp hu).2 (hmem.mpr ⟨l, hl, hls, rfl⟩)
    · rw [if_neg hls]
      refine (hused _).mpr ⟨hbefore, fun hr => ?_⟩
      obtain ⟨l', hl', hls', heq'⟩ := hmem.mp hr
      rw [h.mounted.vol.inj hl' hl heq'] at hls'
      exact hls hls'

theorem Inv.close :
    ∃ st', step st (.close s) = some st' ∧ Inv d0 st' ∧ ClosesRight st st' s := by
  have hout : st.refs s ≤ st.outstanding s := Nat.le_add_right _ _
  obtain ⟨ino, hino, hcnt⟩ := h.struct (s := s) (by omega)
  have hstep : ∀ fs', inodeClose (freeMapOps 1) st.fs s = some fs' →
      step st (.close s) = some { st with
        fs := fs'
        refs := update st.refs s (st.refs s - 1)
        kept := update st.kept s (some ino) } := by
    intro fs' heq
    simp only [step, held, hs, decide_true, if_true, hino, heq, some_bind]
  have hused := h.mounted.vol.used
  by_cases hmore : 1 < st.outstanding s
  · obtain ⟨fs', heq, hinv, hkeep⟩ := h.close_shared hs hino hcnt hmore
    exact ⟨_, hstep fs' heq, hinv, fun l hl _ => hkeep _ (hused l hl), fun h1 => by omega,
      fun h1 => by omega⟩
  · -- the free map file has a reference of its own
    have h0 : s ≠ FREE_MAP_SECTOR := by
      rintro rfl
      exact hmore (by unfold State.outstanding; rw [if_pos rfl]; omega)
    have hone : ino.openCnt = 1 := by omega
    cases hrem : st.removed s with
    | false =>
      obtain ⟨fs', heq, hinv, hkeep, hdisk⟩ := h.close_last hs hino hone h0 hrem
      exact ⟨_, hstep fs' heq, hinv, fun l hl _ => hkeep _ (hused l hl),
        fun _ hr => absurd (hrem.symm.trans hr) (by decide), fun _ _ => ⟨ino, hino, hdisk⟩⟩
    | true =>
      obtain ⟨fs', heq, hinv, hplace⟩ := h.close_removed hs hino hone h0 hrem
      refine ⟨_, hstep fs' heq, hinv, fun l hl hor => ?_, fun _ _ l hl hls => ?_,
        fun _ hr => absurd (hrem.symm.trans hr) (by decide)⟩
      · have hls : l.1 ≠ s := fun hls => by
          rcases hor hls with hm | hr
          · exact hmore hm
          · exact absurd (hrem.symm.trans hr) (by decide)
        have := hplace l hl
        rwa [if_neg hls] at this
      · have := hplace l hl
        rwa [if_pos hls] at this

theorem Inv.remove :
    ∃ st', step st (.remove s) = some st' ∧ Inv d0 st' ∧
      ∀ u, st.fs.isUsed u → st'.fs.isUsed u := by
  have hout : st.refs s ≤ st.outstanding s := Nat.le_add_right _ _
  obtain ⟨ino, hino, -⟩ := h.struct (s := s) (by omega)
  obtain ⟨heq, hm⟩ := inodeRemove_spec h.mounted hino
  obtain ⟨ino', hino'⟩ : ∃ e : Inode, e = { ino with removed := true } := ⟨_, rfl⟩
  have hsec : ino'.sector = s := by
    rw [hino', ← inode?_sector hino]
  rw [← hino'] at heq hm
  have hfind := inode?_setInode hino hsec
  -- a struct that is not there now was not there before
  have hold : ∀ j, (st.fs.setInode ino').inode? j = none → j ≠ s ∧ st.fs.inode? j = none := by
    intro j hnone
    rw [hfind] at hnone
    by_cases hjs : j = s
    · rw [if_pos hjs] at hnone
      cases hnone
    · rw [if_neg hjs] at hnone
      exact ⟨hjs, hnone⟩
  refine ⟨{ st with fs := st.fs.setInode ino', removed := update st.removed s true }, ?_,
    ⟨hm, h.unlocked, ?_, ?_, ?_, ?_⟩, fun _ hu => hu⟩
  · simp only [step, held, hs, decide_true, if_true, heq, some_bind]
  · intro j
    refine Eq.trans ?_ (h.count j)
    rw [openCount_setInode hino hsec]
    by_cases hjs : j = s
    · rw [if_pos hjs, hjs, openCount_of_open hino, hino']
    · rw [if_neg hjs]
  · intro j e he
    rw [hfind] at he
    by_cases hjs : j = s
    · rw [if_pos hjs] at he
      cases he
      rw [hino', hjs]
      exact (update_self s true st.removed).symm
    · rw [if_neg hjs] at he
      exact (h.removed j e he).trans (update_of_ne hjs ..).symm
  · intro j hj hnone
    obtain ⟨hjs, hnone⟩ := hold j hnone
    exact (update_of_ne hjs ..).trans (h.alive j hj hnone)
  · intro j hj hnone core hcore
    obtain ⟨hjs, hnone⟩ := hold j hnone
    refine Eq.trans ?_ (h.kept j hj hnone core hcore)
    rw [node_setInode hino hsec, if_neg hjs]

end

theorem Inv.create {initialSize : Int} {isDir : Bool}
    (hgood : Good st (.create initialSize isDir)) :
    ∃ st', step st (.create initialSize isDir) = some st' ∧ Inv d0 st' ∧
      ∀ u, st.fs.isUsed u → st'.fs.isUsed u := by
  rcases hgood with hfull | ⟨h0, hsame, hb⟩
  · refine ⟨st, ?_, h, fun _ hu => hu⟩
    simp only [step, held, createFile_full isDir hfull, some_bind,
      if_true]
  · obtain ⟨s, fs2, hcreate, ha, -, hnew, hc⟩ :=
      createFile_spec isDir h.mounted.attached (h.unlocked _) h0 hsame (m := 0)
        (by simpa using hb)
    have hm := hc.mounted h.mounted ha hnew
    have hclosed := h.mounted.vol.closed_of_not_live hnew
    refine ⟨{ st with fs := fs2, removed := update st.removed s false,
                      kept := update st.kept s none }, ?_,
      ⟨hm, fun i => by rw [hc.locked]; exact h.unlocked i, ?_, ?_, ?_, ?_⟩, hc.spent.used⟩
    · simp only [step, held, hcreate, some_bind, if_true]
    · exact fun j => (openCount_congr (hc.inodes j)).trans (h.count j)
    · intro j e he
      rw [hc.inodes j] at he
      have hjs : j ≠ s := by
        rintro rfl
        cases hclosed.symm.trans he
      exact (h.removed j e he).trans (update_of_ne hjs ..).symm
    · intro j hj hnone
      by_cases hjs : j = s
      · rw [hjs]
        exact update_self ..
      · rw [hc.live] at hj
        rw [hc.inodes j] at hnone
        exact (update_of_ne hjs ..).trans
          (h.alive j (Set.mem_of_mem_insert_of_ne hj hjs) hnone)
    · intro j hj hnone core hcore
      by_cases hjs : j = s
      · subst hjs
        have hk : update st.kept j none j = some core := hcore
        rw [update_self] at hk
        cases hk
      · rw [hc.live] at hj
        have hj' := Set.mem_of_mem_insert_of_ne hj hjs
        rw [hc.inodes j] at hnone
        rw [hc.frame.node j hj' hjs]
        exact h.kept j hj' hnone core ((update_of_ne hjs ..).symm.trans hcore)

/-- **Step lemma.** A call on an inode that the caller holds returns, does what is
expected of it and keeps the invariant. -/
theorem Inv.step {a : Act} (hheld : held st a = true) (hgood : Good st a) :
    ∃ st', step st a = some st' ∧ Inv d0 st' ∧ Behaves st st' a := by
  cases a with
  | «open» s =>
    obtain ⟨hinv, hsame, hkept⟩ := h.reference (s := s) hgood rfl
    exact ⟨_, rfl, hinv, hsame, hkept⟩
  | reopen s =>
    have hs : 0 < st.refs s := by simpa [held] using hheld
    have hout : st.refs s ≤ st.outstanding s := Nat.le_add_right _ _
    obtain ⟨ino, hino, -⟩ := h.struct (s := s) (by omega)
    obtain ⟨hinv, hsame, -⟩ := h.reference (h.mounted.vol.opened s ino hino).1 rfl
    refine ⟨_, ?_, hinv, hsame⟩
    simp only [Deferred.step, hheld, if_true, inodeReopen_eq hino, some_bind]
  | close s => exact h.close (by simpa [held] using hheld)
  | remove s => exact h.remove (by simpa [held] using hheld)
  | create initialSize isDir => exact h.create hgood

end

/-- **Deferred deletion.** Whatever sequence of calls has been made since
`filesys_init`, if each of them met `Good`, then the structs are counted right
and the next call that does so returns and behaves. -/
theorem deferred_deletion {fs : FS} {as : List Act} {a : Act} (hboot : Booted d0 fs)
    (hrun : Run step Good (start fs) as st) (hheld : held st a = true) (hgood : Good st a) :
    Counted st ∧ ∃ st', step st a = some st' ∧ Behaves st st' a := by
  have hinv : Inv d0 st := by
    refine hrun.invariant (fun t b t' ht hok heq => ?_) hboot.inv
    -- a step that is taken is one by somebody who holds the inode
    have hb : held t b = true := by
      by_contra hb
      simp [Deferred.step, hb] at heq
    obtain ⟨t'', heq', hinv, -⟩ := ht.step hb hok
    cases heq.symm.trans heq'
    exact hinv
  obtain ⟨st', heq, -, hbeh⟩ := hinv.step hheld hgood
  exact ⟨hinv.counted, st', heq, hbeh⟩

end

/-- The root directory of a formatted disk is opened and closed. -/
theorem deferred_deletion_root :
    ∃ fs st, filesysInit (fun _ => Arr.const 0) 8 (fun _ _ => 0) = some fs ∧
      Run step Good (start fs) [.open ROOT_DIR_SECTOR] st ∧ Counted st ∧
      ∃ st', step st (.close ROOT_DIR_SECTOR) = some st' ∧
        Behaves st st' (.close ROOT_DIR_SECTOR) := by
  obtain ⟨fs, hinit, hf⟩ := formatted_eight
  have hlive : ROOT_DIR_SECTOR ∈ fs.live := by
    rw [hf.live]
    exact Set.mem_insert_of_mem _ rfl
  have hrun : Run step Good (start fs) ([] ++ [.open ROOT_DIR_SECTOR]) _ := .snoc .nil hlive rfl
  refine ⟨fs, _, hinit, hrun, deferred_deletion (Booted.of_formatted hf) hrun ?_ trivial⟩
  rfl

/-- Files 4 and 6 are created on a disk that has room for the first one only. The
pointer of the second is what its memory held, the data sector of the first.
Removing the second frees that sector while the first is open. -/
theorem close_frees_sector_of_open_file :
    ∃ fs st, filesysInit (fun _ => Arr.const 0) 7 (fun _ _ => 5) = some fs ∧
      Run step (fun _ _ => True) (start fs)
        [.create 1 false, .open 4, .create 1 false, .open 6, .remove 6, .close 6] st ∧
      ∃ ino, st.fs.inode? 4 = some ino ∧ ino.openCnt = 1 ∧ ino.removed = false ∧
        ino.length = 1 ∧ ino.ptrs.get 0 = 5 ∧ st.fs.isFree 5 := by
  simp only [exists_and_left, FS.isFree]
  decide +kernel

end Pintos.FileSys.Deferred
