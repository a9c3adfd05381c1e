import Mathlib.Data.List.Nodup
import Pintos.Lib.Options

/-!
# Waiting for a child (`userprog/process.c`)

A process keeps its children in `list_children`. `process_wait` looks the child up
with `search_child`, waits until the child has passed through `process_exit`, looks
it up once more, takes it out of the list and lets it go.

`search_child` does not tell a child it has found from the last one it has looked
at: for a tid that is not in the list it returns the last child, if that one is
loaded.
-/

namespace Pintos.UserProg

open Lib List

/-! ## The calls -/

def TID_ERROR : Int := -1

/-- The fields of a child's `struct thread` that waiting for it uses. A semaphore is
its value. -/
structure Thread where
  tid : Int
  isLoaded : Bool
  isExited : Bool
  exitStatus : Int
  semaWait : Nat
  semaExited : Nat

/-- `list_children` of a process and the tids of the children that it has waited
for. `allocate_tid` gives every thread a tid of its own, and none `TID_ERROR`. -/
structure Process where
  listChildren : List Thread
  waited : List Int
  nodup : (listChildren.map Thread.tid).Nodup
  valid : ∀ c ∈ listChildren, c.tid ≠ TID_ERROR
  gone : ∀ tid ∈ waited, tid ∉ listChildren.map Thread.tid

/-- The child `th_child` points to when the loop of `search_child` ends: the first
one with that tid, else the last one. -/
def lastVisited (tid : Int) : List Thread → Option Nat
  | [] => none
  | [_] => some 0
  | c :: c' :: rest =>
    if c.tid = tid then some 0 else (lastVisited tid (c' :: rest)).map (· + 1)

/-- A `struct thread *` of a child is its position in the list. -/
def searchChild (children : List Thread) (tid : Int) : Option Nat := do
  let k ← lastVisited tid children
  let thChild ← children[k]?
  if thChild.isLoaded then some k else none

/-- What `process_wait` does before `sema_down`: it returns, or it goes to wait for
the child at a position of the list. -/
inductive Wait where
  | returns (status : Int)
  | downs (k : Nat)
deriving DecidableEq

/-- `process_wait` up to `sema_down (&th_child->sema_wait)`. The list is not changed. -/
def processWait (p : Process) (childTid : Int) : Wait :=
  if childTid = TID_ERROR then .returns (-1)
  else
    match searchChild p.listChildren childTid with
    | none => .returns (-1)
    | some k => .downs k

section
variable (p : Process) (k : Nat)

theorem Process.eraseIdx_sublist :
    ((p.listChildren.eraseIdx k).map Thread.tid).Sublist (p.listChildren.map Thread.tid) :=
  (List.eraseIdx_sublist ..).map _

variable {p k} in
theorem Process.position_unique {j : Nat} {c c' : Thread} (hc : p.listChildren[k]? = some c)
    (hc' : p.listChildren[j]? = some c') (htid : c'.tid = c.tid) : j = k := by
  have hlt : j < (p.listChildren.map Thread.tid).length := by
    simpa using (List.getElem?_eq_some_iff.mp hc').1
  refine (List.getElem?_inj hlt p.nodup).mp ?_
  rw [List.getElem?_map, List.getElem?_map, hc, hc', Option.map_some, Option.map_some, htid]

def Process.removeChild (c : Thread) (hc : p.listChildren[k]? = some c) : Process where
  listChildren := p.listChildren.eraseIdx k
  waited := c.tid :: p.waited
  nodup := p.nodup.sublist (p.eraseIdx_sublist k)
  valid := fun c hmem => p.valid c (mem_of_mem_eraseIdx hmem)
  gone := by
    intro tid htid hmem
    rcases mem_cons.mp htid with rfl | hwaited
    · obtain ⟨c', hc', heq⟩ := mem_map.mp hmem
      obtain ⟨j, hj, hget⟩ := mem_eraseIdx_iff_getElem?.mp hc'
      exact hj (Process.position_unique hc hget heq)
    · exact p.gone tid hwaited ((p.eraseIdx_sublist k).subset hmem)

variable {p k} in
theorem Process.map_tid_set {c c' : Thread} (hc : p.listChildren[k]? = some c)
    (htid : c'.tid = c.tid) :
    (p.listChildren.set k c').map Thread.tid = p.listChildren.map Thread.tid := by
  obtain ⟨hk, rfl⟩ := List.getElem?_eq_some_iff.mp hc
  rw [List.map_set, htid]
  have hlt : k < (p.listChildren.map Thread.tid).length := by simpa using hk
  have hself := List.set_getElem_self hlt
  rwa [List.getElem_map] at hself

def Process.setChild (c c' : Thread) (hc : p.listChildren[k]? = some c) (htid : c'.tid = c.tid) :
    Process where
  listChildren := p.listChildren.set k c'
  waited := p.waited
  nodup := by
    rw [Process.map_tid_set hc htid]
    exact p.nodup
  valid := by
    intro x hx
    rcases mem_or_eq_of_mem_set hx with hmem | rfl
    · exact p.valid x hmem
    · rw [htid]
      exact p.valid c (mem_of_getElem? hc)
  gone := by
    rw [Process.map_tid_set hc htid]
    exact p.gone

end

/-- The end of `process_wait`: the status it returns, the process afterwards, and the
child that has been let go. There is no value where a null pointer would be
followed. -/
def takeChild (p : Process) (childTid : Int) : Option (Int × Process × Thread) :=
  match searchChild p.listChildren childTid with
  | none => none
  | some k =>
    match hk : p.listChildren[k]? with
    | none => none
    | some thChild =>
      some (thChild.exitStatus, p.removeChild k thChild hk,
        { thChild with semaExited := thChild.semaExited + 1 })

/-- `process_wait` from `sema_down` on the child at position `k` to its end. There is
no value while the semaphore is 0. -/
def resumeWait (p : Process) (k : Nat) (childTid : Int) : Option (Int × Process × Thread) :=
  match hk : p.listChildren[k]? with
  | none => none
  | some thChild =>
    if thChild.semaWait = 0 then none
    else
      takeChild (p.setChild k thChild { thChild with semaWait := thChild.semaWait - 1 } hk rfl)
        childTid

theorem takeChild_eq {p : Process} {k : Nat} {childTid : Int} {c : Thread}
    (hsearch : searchChild p.listChildren childTid = some k) (hk : p.listChildren[k]? = some c) :
    takeChild p childTid = some (c.exitStatus, p.removeChild k c hk,
      { c with semaExited := c.semaExited + 1 }) := by
  unfold takeChild
  rw [hsearch]
  dsimp only
  split
  · rename_i hnone
    rw [hk] at hnone
    cases hnone
  · rename_i x hx
    obtain rfl : c = x := Option.some.inj (hk.symm.trans hx)
    rfl

theorem resumeWait_eq {p : Process} {k : Nat} {childTid : Int} {c : Thread}
    (hk : p.listChildren[k]? = some c) (hup : 0 < c.semaWait) :
    resumeWait p k childTid =
      takeChild (p.setChild k c { c with semaWait := c.semaWait - 1 } hk rfl) childTid := by
  unfold resumeWait
  split
  · rename_i hnone
    rw [hk] at hnone
    cases hnone
  · rename_i x hx
    obtain rfl : c = x := Option.some.inj (hk.symm.trans hx)
    rw [if_neg (by omega)]

/-! ## The specification -/

/-- What may happen to the children of a process while it sleeps: only the process
itself adds and removes children, and a loaded child stays loaded. -/
structure Evolves (p p' : Process) : Prop where
  waited : p'.waited = p.waited
  children : List.Forall₂ (fun c c' : Thread => c'.tid = c.tid ∧
    (c.isLoaded = true → c'.isLoaded = true)) p.listChildren p'.listChildren

/-- The comment over `process_wait`, for one call. -/
structure MeetsSpec (p : Process) (tid : Int) : Prop where
  /-- Not a child, or already waited for: no blocking, and nothing changes. -/
  stranger : tid ∉ p.listChildren.map Thread.tid ∨ tid ∈ p.waited →
    processWait p tid = .returns (-1)
  /-- Otherwise the call waits for this child, returns its status, takes it and no
  other out of the list and lets it go. -/
  child : ∀ k c, p.listChildren[k]? = some c → c.tid = tid → c.isLoaded = true →
    processWait p tid = .downs k ∧
    ∀ p' c', Evolves p p' → p'.listChildren[k]? = some c' → 0 < c'.semaWait →
      ∃ q, resumeWait p' k tid = some (c'.exitStatus, q,
          { c' with semaWait := c'.semaWait - 1, semaExited := c'.semaExited + 1 }) ∧
        q.listChildren = p'.listChildren.eraseIdx k

section
variable {children : List Thread} {tid : Int} {k : Nat} {c : Thread}

theorem lastVisited_of_mem (hnd : (children.map Thread.tid).Nodup)
    (hc : children[k]? = some c) (htid : c.tid = tid) : lastVisited tid children = some k := by
  induction children generalizing k with
  | nil => simp at hc
  | cons a rest ih =>
    rw [map_cons, nodup_cons] at hnd
    cases k with
    | zero =>
      cases hc
      cases rest with
      | nil => rfl
      | cons b rest => simp [lastVisited, htid]
    | succ j =>
      have hj : rest[j]? = some c := hc
      have hne : a.tid ≠ tid := by
        rintro rfl
        exact hnd.1 (mem_map.mpr ⟨c, mem_of_getElem? hj, htid⟩)
      cases rest with
      | nil => simp at hj
      | cons b rest => simp [lastVisited, hne, ih hnd.2 hj]

theorem lastVisited_of_not_mem (hne : children ≠ [])
    (htid : tid ∉ children.map Thread.tid) : lastVisited tid children = some (children.length - 1) := by
  induction children with
  | nil => exact absurd rfl hne
  | cons a rest ih =>
    rw [map_cons, mem_cons, not_or] at htid
    cases rest with
    | nil => rfl
    | cons b rest =>
      have hrest := ih (by simp) htid.2
      simp [lastVisited, Ne.symm htid.1, hrest]

theorem searchChild_of_mem (hnd : (children.map Thread.tid).Nodup) (hc : children[k]? = some c)
    (htid : c.tid = tid) : searchChild children tid = if c.isLoaded then some k else none := by
  simp [searchChild, lastVisited_of_mem hnd hc htid, hc]

theorem searchChild_of_not_mem (htid : tid ∉ children.map Thread.tid) :
    searchChild children tid =
      if children.getLast?.any Thread.isLoaded then some (children.length - 1) else none := by
  by_cases hne : children = []
  · subst hne
    rfl
  · rw [searchChild, lastVisited_of_not_mem hne htid, getLast?_eq_getElem?]
    simp only [some_bind]
    cases children[children.length - 1]? with
    | none => rfl
    | some c => simp

variable {p p' : Process} {c' : Thread}

theorem Evolves.child (h : Evolves p p') (hc : p.listChildren[k]? = some c)
    (hc' : p'.listChildren[k]? = some c') :
    c'.tid = c.tid ∧ (c.isLoaded = true → c'.isLoaded = true) := by
  obtain ⟨hk, rfl⟩ := List.getElem?_eq_some_iff.mp hc
  obtain ⟨hk', rfl⟩ := List.getElem?_eq_some_iff.mp hc'
  exact h.children.get hk hk'

theorem resumeWait_of_loaded (tid : Int) (hc : p.listChildren[k]? = some c) (htid : c.tid = tid)
    (hloaded : c.isLoaded = true) (hup : 0 < c.semaWait) :
    ∃ q, resumeWait p k tid = some (c.exitStatus, q,
        { c with semaWait := c.semaWait - 1, semaExited := c.semaExited + 1 }) ∧
      q.listChildren = p.listChildren.eraseIdx k := by
  have hlt := (List.getElem?_eq_some_iff.mp hc).1
  have hnew : (p.setChild k c { c with semaWait := c.semaWait - 1 } hc rfl).listChildren[k]? =
      some { c with semaWait := c.semaWait - 1 } := List.getElem?_set_self hlt
  have hsearch : searchChild
      (p.setChild k c { c with semaWait := c.semaWait - 1 } hc rfl).listChildren tid = some k := by
    rw [searchChild_of_mem (Process.nodup _) hnew htid]
    exact if_pos hloaded
  rw [resumeWait_eq hc hup, takeChild_eq hsearch hnew]
  exact ⟨_, rfl, List.eraseIdx_set_eq ..⟩

theorem meetsSpec_of_mem (hmem : tid ∈ p.listChildren.map Thread.tid) : MeetsSpec p tid where
  stranger := by
    rintro (hnot | hwaited)
    · exact absurd hmem hnot
    · exact absurd hmem (p.gone tid hwaited)
  child := by
    intro k c hc htid hloaded
    have hne : tid ≠ TID_ERROR := htid ▸ p.valid c (mem_of_getElem? hc)
    refine ⟨?_, fun p' c' hev hc' hup => ?_⟩
    · rw [processWait, if_neg hne, searchChild_of_mem p.nodup hc htid, if_pos hloaded]
    · obtain ⟨htid', hloaded'⟩ := hev.child hc hc'
      exact resumeWait_of_loaded tid hc' (htid'.trans htid) (hloaded' hloaded) hup

/-- What `process_wait` does with a tid that is not in the list. -/
theorem processWait_of_not_mem (hnot : tid ∉ p.listChildren.map Thread.tid)
    (hne : tid ≠ TID_ERROR) :
    processWait p tid = if p.listChildren.getLast?.any Thread.isLoaded then
      .downs (p.listChildren.length - 1) else .returns (-1) := by
  rw [processWait, if_neg hne, searchChild_of_not_mem hnot]
  split <;> simp_all

end

/-- **`process_wait` meets its specification** for `TID_ERROR`, for the tids of
children, and for all others unless the last child of the list is loaded. -/
theorem process_wait_meets_spec_iff (p : Process) (tid : Int) :
    MeetsSpec p tid ↔ tid = TID_ERROR ∨ tid ∈ p.listChildren.map Thread.tid ∨
      ∀ c, p.listChildren.getLast? = some c → c.isLoaded = false := by
  by_cases hmem : tid ∈ p.listChildren.map Thread.tid
  · exact iff_of_true (meetsSpec_of_mem hmem) (.inr (.inl hmem))
  · have hchild : ∀ (k : Nat) (c : Thread), p.listChildren[k]? = some c → c.tid ≠ tid := by
      intro k c hc htid
      exact hmem (mem_map.mpr ⟨c, mem_of_getElem? hc, htid⟩)
    have hspec : MeetsSpec p tid ↔ processWait p tid = .returns (-1) :=
      ⟨fun h => h.stranger (.inl hmem),
        fun h => ⟨fun _ => h, fun k c hc htid => absurd htid (hchild k c hc)⟩⟩
    rw [hspec]
    by_cases herr : tid = TID_ERROR
    · simp [processWait, herr]
    · rw [processWait_of_not_mem hmem herr]
      cases hlast : p.listChildren.getLast? with
      | none => simp
      | some c => cases hc : c.isLoaded <;> simp [hc, hmem, herr]

def runningChild (tid : Int) : Thread := ⟨tid, true, false, 0, 0, 0⟩

def oneChild : Process where
  listChildren := [runningChild 3]
  waited := []
  nodup := by simp
  valid := by simp [runningChild, TID_ERROR]
  gone := by simp

/-- Waiting for a tid that is no child's blocks until the only child exits. -/
theorem wait_for_stranger_blocks : ¬ MeetsSpec oneChild 7 := by
  intro h
  have := h.stranger (.inl (by decide))
  revert this
  decide

end Pintos.UserProg
