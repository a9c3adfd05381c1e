import Mathlib.Logic.Function.Basic
import Pintos.Lib.Run
import Pintos.UserProg.Process

/-!
# The life of a process (`userprog/process.c`, `threads/thread.c`)

`process_execute` creates a thread and sleeps on its own `sema_load` until the new
thread has tried to load the program. `process_exit` raises the thread's `sema_wait`
and sleeps on its `sema_exited`; `process_wait` sleeps on the `sema_wait` of a child,
removes the child from `list_children` and raises its `sema_exited`. Only then does
the child go on to `schedule_tail`, where its `struct thread` is destroyed.

Any number of threads make these calls, and the processor may be given to another
thread after every step. A `struct thread` is known by its address, which is not used
again in the model: a pointer to a destroyed thread stays wrong even if a new thread is
put there. `allocate_tid` counts up from 1 and addresses are taken in the same order.
-/

namespace Pintos.UserProg.Lifecycle

open Lib Function List

/-! ## The machine -/

inductive PC where
  /-- in user code, or in the kernel outside these functions -/
  | user
  /-- in `start_process`, before `load` has returned -/
  | starting
  /-- in `start_process`, `is_loaded` set, before `sema_up (&th_parent->sema_load)` -/
  | loaded (success : Bool)
  /-- in `process_execute`, at `sema_down (&sema_load)` -/
  | execDown (tid : Int)
  /-- in `process_execute`, after it -/
  | execSearch (tid : Int)
  /-- in `process_wait`, at `sema_down (&th_child->sema_wait)` -/
  | waitDown (child : Nat) (tid : Int)
  /-- in `process_wait`, after it -/
  | waitSearch (tid : Int)
  /-- in `process_wait`, at `sema_up (&th_child->sema_exited)` -/
  | waitUp (child : Nat)
  /-- in `process_exit`, at `sema_up (&curr->sema_wait)` -/
  | exitUp
  /-- in `process_exit`, at `sema_down (&curr->sema_exited)` -/
  | exitDown
  /-- in `process_exit`, after it -/
  | exitFree
  /-- `THREAD_DYING`, switched away -/
  | dying
deriving DecidableEq

/-- The members of `struct thread` that these functions use. A semaphore is its value. -/
structure Thread where
  tid : Int
  thParent : Nat
  listChildren : List Nat
  isLoaded : Bool
  exitStatus : Int
  semaLoad : Nat
  semaWait : Nat
  semaExited : Nat
  pc : PC

structure Procs where
  /-- The threads that are not destroyed, by address. -/
  heap : Nat → Option Thread
  /-- The address that `thread_create` takes next. -/
  next : Nat
  /-- History: who created a thread, whose `process_wait` removed it, how often its semaphores
  were raised, whether its program was loaded, and what `process_execute` returned to whom. -/
  creator : Nat → Nat
  removedBy : Nat → Option Nat
  waitUps : Nat → Nat
  exitedUps : Nat → Nat
  loadOk : Nat → Bool
  executed : List (Nat × Int)

inductive Act where
  /-- `process_execute` up to `sema_down`; `thread_create` may fail -/
  | exec (created : Bool)
  /-- `process_execute` finds no page for `fn_copy` -/
  | execNoPage
  /-- `thread_create` of a kernel thread -/
  | spawn
  /-- the end of `load` -/
  | load (success : Bool)
  | loadUp
  | execDown
  | execReturn
  /-- `process_wait` up to `sema_down` -/
  | wait (tid : Int)
  | waitDown
  /-- the second `search_child` and `list_remove` -/
  | waitTake
  | waitUp
  /-- `thread_exit` is called, after `exit` has set the status or by `kill` -/
  | exit (status : Option Int)
  | exitUp
  | exitDown
  /-- the rest of `process_exit`; `THREAD_DYING` -/
  | die
  /-- `schedule_tail`, in the thread that was switched to -/
  | destroy

/-- The thread `th_child` points to when the loop of `search_child` ends. There is no value if
a destroyed thread was looked at. -/
def lastVisited (heap : Nat → Option Thread) (tid : Int) : List Nat → Option Nat
  | [] => none
  | [c] => (heap c).map fun _ => c
  | c :: c' :: rest =>
    match heap c with
    | none => none
    | some thChild => if thChild.tid = tid then some c else lastVisited heap tid (c' :: rest)

def searchChild (heap : Nat → Option Thread) (children : List Nat) (tid : Int) :
    Option (Option Nat) :=
  if children = [] then some none
  else do
    let k ← lastVisited heap tid children
    let thChild ← heap k
    some (if thChild.isLoaded then some k else none)

def tidOf (c : Nat) : Int := c + 1

theorem tidOf_inj {c d : Nat} : tidOf c = tidOf d ↔ c = d := by
  unfold tidOf
  omega

def initThread (c t : Nat) (pc : PC) : Thread where
  tid := tidOf c
  thParent := t
  listChildren := []
  isLoaded := false
  exitStatus := 0
  semaLoad := 0
  semaWait := 0
  semaExited := 0
  pc := pc

namespace Procs

def put (s : Procs) (t : Nat) (th : Thread) : Procs :=
  { s with heap := update s.heap t (some th) }

/-- Thread `t`, whose members are `th`, goes to `pc`. -/
def goto (s : Procs) (t : Nat) (th : Thread) (pc : PC) : Procs := s.put t { th with pc }

def returns (s : Procs) (t : Nat) (tid : Int) : Procs :=
  { s with executed := s.executed ++ [(t, tid)] }

/-- `thread_create` by thread `t`, which goes to `pc`; the new thread begins at `pc'`. -/
def create (s : Procs) (t : Nat) (th : Thread) (pc pc' : PC) : Procs :=
  { (s.put s.next (initThread s.next t pc')).put t
      { th with listChildren := th.listChildren ++ [s.next], pc } with
    next := s.next + 1
    creator := update s.creator s.next t }

def start : Procs where
  heap := update (fun _ => none) 0 (some (initThread 0 0 .user))
  next := 1
  creator := fun _ => 0
  removedBy := fun _ => none
  waitUps := fun _ => 0
  exitedUps := fun _ => 0
  loadOk := fun _ => false
  executed := []

/-- One step of thread `t`, whose members are `th`. There is no value if the thread has to wait
or if a destroyed thread is looked at. -/
def stepOf (s : Procs) (t : Nat) (th : Thread) : Act → PC → Option Procs
  | .execNoPage, .user => some (s.returns t TID_ERROR)
  | .exec true, .user => some (s.create t th (.execDown (tidOf s.next)) .starting)
  | .exec false, .user => some (s.goto t th (.execDown TID_ERROR))
  | .spawn, .user => some (s.create t th .user .user)
  | .load success, .starting =>
    some { s.put t { th with isLoaded := success, pc := .loaded success } with
      loadOk := if success then update s.loadOk t true else s.loadOk }
  | .loadUp, .loaded success =>
    let s' := s.goto t th (if success then .user else .exitUp)
    (s'.heap th.thParent).map fun p => s'.put th.thParent { p with semaLoad := p.semaLoad + 1 }
  | .execDown, .execDown tid =>
    if th.semaLoad = 0 then none
    else some (s.put t { th with semaLoad := th.semaLoad - 1, pc := .execSearch tid })
  | .execReturn, .execSearch tid =>
    if tid = TID_ERROR then some ((s.goto t th .user).returns t (-1))
    else
      match searchChild s.heap th.listChildren tid with
      | none => none
      | some none => some ((s.goto t th .user).returns t (-1))
      | some (some k) => (s.heap k).map fun thChild =>
        (s.goto t th .user).returns t (if thChild.isLoaded then tid else -1)
  | .wait tid, .user =>
    if tid = TID_ERROR then some s
    else
      match searchChild s.heap th.listChildren tid with
      | none => none
      | some none => some s
      | some (some k) => some (s.goto t th (.waitDown k tid))
  | .waitDown, .waitDown k tid =>
    let s' := s.goto t th (.waitSearch tid)
    (s'.heap k).bind fun thChild =>
      if thChild.semaWait = 0 then none
      else some (s'.put k { thChild with semaWait := thChild.semaWait - 1 })
  | .waitTake, .waitSearch tid =>
    match searchChild s.heap th.listChildren tid with
    | some (some k) =>
      some { s.put t { th with listChildren := th.listChildren.erase k, pc := .waitUp k } with
        removedBy := update s.removedBy k (some t) }
    -- list_remove (&NULL->elem_list_children)
    | _ => none
  | .waitUp, .waitUp k =>
    let s' := s.goto t th .user
    (s'.heap k).map fun thChild =>
      { s'.put k { thChild with semaExited := thChild.semaExited + 1 } with
        exitedUps := update s'.exitedUps k (s'.exitedUps k + 1) }
  | .exit status, .user | .exit status, .starting =>
    some (s.put t { th with exitStatus := status.getD th.exitStatus, pc := .exitUp })
  | .exitUp, .exitUp =>
    some { s.put t { th with semaWait := th.semaWait + 1, pc := .exitDown } with
      waitUps := update s.waitUps t (s.waitUps t + 1) }
  | .exitDown, .exitDown =>
    if th.semaExited = 0 then none
    else some (s.put t { th with semaExited := th.semaExited - 1, pc := .exitFree })
  | .die, .exitFree => some (s.goto t th .dying)
  | .destroy, .dying =>
    -- prev != initial_thread
    if t = 0 then none else some { s with heap := update s.heap t none }
  | _, _ => none

def step (s : Procs) (a : Nat × Act) : Option Procs :=
  (s.heap a.1).bind fun th => s.stepOf a.1 th a.2 th.pc

end Procs

/-! ## search_child -/

/-- `lastVisited`, if every thread has its address as tid. -/
def visited (tid : Int) : List Nat → Option Nat
  | [] => none
  | [c] => some c
  | c :: c' :: rest => if tidOf c = tid then some c else visited tid (c' :: rest)

section
variable {heap : Nat → Option Thread} {tid : Int} {children : List Nat} {c k : Nat}

theorem visited_mem (h : visited tid children = some k) : k ∈ children := by
  induction children with
  | nil => cases h
  | cons c rest ih =>
    cases rest with
    | nil =>
      cases h
      exact mem_cons_self
    | cons c' rest =>
      simp only [visited] at h
      split at h
      · cases h
        exact mem_cons_self
      · exact mem_cons_of_mem _ (ih h)

theorem visited_eq_none (h : visited tid children = none) : children = [] := by
  induction children with
  | nil => rfl
  | cons c rest ih =>
    cases rest with
    | nil => cases h
    | cons c' rest =>
      simp only [visited] at h
      split at h
      · cases h
      · cases ih h

theorem visited_of_mem (hc : c ∈ children) : visited (tidOf c) children = some c := by
  induction children with
  | nil => cases hc
  | cons d rest ih =>
    cases rest with
    | nil =>
      rw [mem_singleton.mp hc]
      rfl
    | cons d' rest =>
      simp only [visited, tidOf_inj]
      split
      · rename_i hd
        rw [hd]
      · rename_i hd
        exact ih ((mem_cons.mp hc).resolve_left (Ne.symm hd))

/-- The loop looks at threads that are not destroyed. -/
theorem lastVisited_eq (h : ∀ c ∈ children, ∃ th, heap c = some th ∧ th.tid = tidOf c) :
    lastVisited heap tid children = visited tid children := by
  induction children with
  | nil => rfl
  | cons c rest ih =>
    obtain ⟨th, hth, htid⟩ := h c mem_cons_self
    cases rest with
    | nil => simp [lastVisited, visited, hth]
    | cons c' rest =>
      simp only [lastVisited, visited, hth, htid]
      rw [ih fun d hd => h d (mem_cons_of_mem _ hd)]

/-- **`search_child` looks at no destroyed thread**, and returns a child that is loaded. -/
theorem searchChild_spec (h : ∀ c ∈ children, ∃ th, heap c = some th ∧ th.tid = tidOf c) :
    (searchChild heap children tid = some none ∧
        ∀ k th, visited tid children = some k → heap k = some th → th.isLoaded = false) ∨
      ∃ k th, searchChild heap children tid = some (some k) ∧ visited tid children = some k ∧
        heap k = some th ∧ th.isLoaded = true := by
  unfold searchChild
  rw [lastVisited_eq h]
  cases hv : visited tid children with
  | none =>
    rw [if_pos (visited_eq_none hv)]
    exact .inl ⟨rfl, nofun⟩
  | some k =>
    obtain ⟨th, hth, -⟩ := h k (visited_mem hv)
    rw [if_neg (ne_nil_of_mem (visited_mem hv))]
    simp only [some_bind, hth]
    cases hl : th.isLoaded with
    | false =>
      refine .inl ⟨rfl, fun k' th' hk' hth' => ?_⟩
      cases hk'
      rw [hth] at hth'
      cases hth'
      exact hl
    | true => exact .inr ⟨k, th, rfl, rfl, hth, hl⟩

/-! ## The invariant -/

def PC.loading : PC → Bool
  | .starting | .loaded _ => true
  | _ => false

def PC.raisedWait : PC → Nat
  | .exitDown | .exitFree | .dying => 1
  | _ => 0

def PC.tookExited : PC → Nat
  | .exitFree | .dying => 1
  | _ => 0

def PC.loadUnits : PC → Nat
  | .execDown _ => 1
  | _ => 0

def Found (s : Procs) (children : List Nat) (tid : Int) (k : Nat) : Prop :=
  visited tid children = some k ∧ ∃ th, s.heap k = some th ∧ th.isLoaded = true

/-- What holds at the place of thread `t` in its calls. -/
def Place (s : Procs) (t : Nat) (children : List Nat) : PC → Prop
  | .execDown tid | .execSearch tid => tid = TID_ERROR ∨ ∃ c ∈ children, tid = tidOf c
  | .waitDown k tid => Found s children tid k
  | .waitSearch tid => ∃ k, Found s children tid k
  | .waitUp k => (∃ th, s.heap k = some th) ∧ s.removedBy k = some t ∧ s.exitedUps k = 0 ∧
      s.creator k = t
  | _ => True

/-- A child in a list: not destroyed, and nobody's `process_wait` has taken it. -/
structure Listed (s : Procs) (t c : Nat) : Prop where
  alive : ∃ th, s.heap c = some th
  creator : s.creator c = t
  kept : s.removedBy c = none
  lt : c < s.next

structure ThreadOk (s : Procs) (t : Nat) (th : Thread) : Prop where
  lt : t < s.next
  tid : th.tid = tidOf t
  parent : th.thParent = s.creator t
  nodup : th.listChildren.Nodup
  children : ∀ c ∈ th.listChildren, Listed s t c
  loaded : th.isLoaded = true → s.loadOk t = true
  starting : th.pc = .starting → th.isLoaded = false
  /-- The parent sleeps until the load is over. -/
  loading : th.pc.loading = true →
    ∃ p, s.heap th.thParent = some p ∧ p.pc = .execDown (tidOf t) ∧ p.semaLoad = 0
  semaLoad : th.semaLoad ≤ th.pc.loadUnits
  waitUps : s.waitUps t = th.pc.raisedWait
  exitedUps : th.semaExited + th.pc.tookExited = s.exitedUps t
  place : Place s t th.listChildren th.pc

/-- What `process_execute` has returned. -/
def Returned (s : Procs) (e : Nat × Int) : Prop :=
  e.2 ≠ TID_ERROR → ∃ c, e.2 = tidOf c ∧ s.loadOk c = true ∧ s.creator c = e.1 ∧ c < s.next

structure Inv (s : Procs) : Prop where
  threads : ∀ t th, s.heap t = some th → ThreadOk s t th
  fresh : ∀ c, s.next ≤ c → s.waitUps c = 0 ∧ s.exitedUps c = 0 ∧ s.removedBy c = none
  gone : ∀ c, c < s.next → s.heap c = none → s.removedBy c = some (s.creator c) ∧ s.waitUps c = 1
  exited : ∀ c, s.exitedUps c ≤ 1 ∧ (s.exitedUps c = 1 → s.removedBy c = some (s.creator c))
  executed : ∀ e ∈ s.executed, Returned s e

variable {s s' : Procs} {t u : Nat} {th th' : Thread}

/-- What another thread depends on. -/
structure Unaffected (s s' : Procs) (u : Nat) (th : Thread) : Prop where
  next : s.next ≤ s'.next
  creator : ∀ c < s.next, s'.creator c = s.creator c
  loadOk : ∀ c < s.next, s.loadOk c = true → s'.loadOk c = true
  waitUps : s'.waitUps u = s.waitUps u
  exitedUps : s'.exitedUps u = s.exitedUps u
  /-- Its children and the child that it lets go. -/
  heap : ∀ c thc, c ∈ th.listChildren ∨ th.pc = .waitUp c → s.heap c = some thc →
    ∃ thc', s'.heap c = some thc' ∧ (thc.isLoaded = true → thc'.isLoaded = true)
  kept : ∀ c ∈ th.listChildren, s'.removedBy c = s.removedBy c
  letGo : ∀ k, th.pc = .waitUp k → s'.removedBy k = s.removedBy k ∧ s'.exitedUps k = s.exitedUps k
  /-- Its parent, while it is loaded. -/
  loading : th.pc.loading = true → ∀ p, s.heap th.thParent = some p → p.pc = .execDown (tidOf u) →
    p.semaLoad = 0 → ∃ p', s'.heap th.thParent = some p' ∧ p'.pc = .execDown (tidOf u) ∧ p'.semaLoad = 0

theorem Place.frame {pc : PC} (h : Place s u children pc)
    (hheap : ∀ c thc, c ∈ children ∨ pc = .waitUp c → s.heap c = some thc →
      ∃ thc', s'.heap c = some thc' ∧ (thc.isLoaded = true → thc'.isLoaded = true))
    (hletGo : ∀ k, pc = .waitUp k → s'.removedBy k = s.removedBy k ∧
      s'.exitedUps k = s.exitedUps k ∧ s'.creator k = s.creator k) : Place s' u children pc := by
  have hfound : ∀ {tid k}, Found s children tid k → Found s' children tid k := by
    rintro tid k ⟨hv, thk, hthk, hl⟩
    obtain ⟨thk', hthk', hl'⟩ := hheap k thk (.inl (visited_mem hv)) hthk
    exact ⟨hv, thk', hthk', hl' hl⟩
  cases pc with
  | waitDown k tid => exact hfound h
  | waitSearch tid =>
    obtain ⟨k, hk⟩ := h
    exact ⟨k, hfound hk⟩
  | waitUp k =>
    obtain ⟨⟨thk, hthk⟩, hremoved, hexited, hcreator⟩ := h
    obtain ⟨thk', hthk', -⟩ := hheap k thk (.inr rfl) hthk
    obtain ⟨hr, he, hc⟩ := hletGo k rfl
    exact ⟨⟨thk', hthk'⟩, hr.trans hremoved, he.trans hexited, hc.trans hcreator⟩
  | _ => exact h

theorem ThreadOk.at {pc : PC} (h : ThreadOk s t th) (hpc : th.pc = pc) :
    th.semaLoad ≤ pc.loadUnits ∧ s.waitUps t = pc.raisedWait ∧
      th.semaExited + pc.tookExited = s.exitedUps t ∧ Place s t th.listChildren pc :=
  hpc ▸ ⟨h.semaLoad, h.waitUps, h.exitedUps, h.place⟩

theorem Inv.frame (hinv : Inv s) (hu : s.heap u = some th) (hs : Unaffected s s' u th) :
    ThreadOk s' u th := by
  have h := hinv.threads u th hu
  refine ⟨Nat.lt_of_lt_of_le h.lt hs.next, h.tid, ?_, h.nodup, fun c hc => ?_,
    fun hl => hs.loadOk u h.lt (h.loaded hl), h.starting, fun hl => ?_, h.semaLoad, ?_, ?_,
    h.place.frame hs.heap fun k hpc => ?_⟩
  · rw [hs.creator u h.lt]
    exact h.parent
  · obtain ⟨⟨thc, hthc⟩, hcreator, hkept, hlt⟩ := h.children c hc
    obtain ⟨thc', hthc', -⟩ := hs.heap c thc (.inl hc) hthc
    refine ⟨⟨thc', hthc'⟩, ?_, ?_, Nat.lt_of_lt_of_le hlt hs.next⟩
    · rw [hs.creator c hlt]
      exact hcreator
    · rw [hs.kept c hc]
      exact hkept
  · obtain ⟨p, hp, hpc, hload⟩ := h.loading hl
    exact hs.loading hl p hp hpc hload
  · rw [hs.waitUps]
    exact h.waitUps
  · rw [hs.exitedUps]
    exact h.exitedUps
  · obtain ⟨-, -, -, ⟨thk, hthk⟩, -⟩ := h.at hpc
    exact ⟨(hs.letGo k hpc).1, (hs.letGo k hpc).2, hs.creator k (hinv.threads k thk hthk).lt⟩

/-- A thread that is changed is not destroyed. -/
theorem update_alive (ht : s.heap t = some th) (hl : th.isLoaded = true → th'.isLoaded = true)
    {thc : Thread} (hc : s.heap c = some thc) : ∃ thc', update s.heap t (some th') c =
      some thc' ∧ (thc.isLoaded = true → thc'.isLoaded = true) := by
  by_cases hct : c = t
  · rw [hct, ht] at hc
    cases hc
    exact ⟨th', (congrArg _ hct).trans (update_self ..), hl⟩
  · exact ⟨thc, (update_of_ne hct ..).trans hc, id⟩

/-- A step that changes thread `t` only, and what is recorded of it and of its children. -/
structure Local (s s' : Procs) (t : Nat) (th th' : Thread) : Prop where
  heap : s'.heap = update s.heap t (some th')
  next : s'.next = s.next
  creator : s'.creator = s.creator
  loadOk : ∀ c, s.loadOk c = true → s'.loadOk c = true
  removedBy : ∀ c, c ∉ th.listChildren → s'.removedBy c = s.removedBy c
  waitUps : ∀ c, c ≠ t → s'.waitUps c = s.waitUps c
  exitedUps : ∀ c, c ≠ t → s'.exitedUps c = s.exitedUps c
  executed : ∀ e ∈ s'.executed, e ∈ s.executed ∨ Returned s' e
  isLoaded : th.isLoaded = true → th'.isLoaded = true
  /-- The parent of a thread that is being loaded goes on sleeping. -/
  sleeping : ∀ u thu, u ≠ t → s.heap u = some thu → thu.pc.loading = true → th.pc = .execDown (tidOf u) →
    th.semaLoad = 0 → th'.pc = .execDown (tidOf u) ∧ th'.semaLoad = 0
  /-- Nobody else is about to raise `sema_exited`. -/
  letGo : ∀ u thu, u ≠ t → s.heap u = some thu → thu.pc = .waitUp t →
    s'.exitedUps t = s.exitedUps t
  exited : s'.exitedUps t ≤ 1 ∧ (s'.exitedUps t = 1 → s'.removedBy t = some (s.creator t))
  ok : ThreadOk s' t th'

section
variable (h : Inv s) (ht : s.heap t = some th)
include h ht

theorem Inv.local (hs : Local s s' t th th') : Inv s' := by
  have hself := h.threads t th ht
  have hheap : ∀ {u}, u ≠ t → s'.heap u = s.heap u := by
    intro u hu
    rw [hs.heap]
    exact update_of_ne hu ..
  have hkept : ∀ {c p}, s.removedBy c = some p → s'.removedBy c = s.removedBy c := by
    intro c p hc
    refine hs.removedBy c fun hmem => ?_
    rw [(hself.children c hmem).kept] at hc
    cases hc
  refine ⟨fun u thu hu => ?_, fun c hc => ?_, fun c hc hnone => ?_, fun c => ?_, fun e he => ?_⟩
  · by_cases hut : u = t
    · rw [hut, hs.heap, update_self] at hu
      cases hu
      rw [hut]
      exact hs.ok
    · rw [hheap hut] at hu
      have hok := h.threads u thu hu
      refine h.frame hu ⟨Nat.le_of_eq hs.next.symm, fun c _ => by rw [hs.creator],
        fun c _ => hs.loadOk c, hs.waitUps u hut, hs.exitedUps u hut, fun c thc _ hthc => ?_,
        fun c hc => ?_, fun k hk => ?_, fun hl p hp hpc hload => ?_⟩
      · rw [hs.heap]
        exact update_alive ht hs.isLoaded hthc
      · -- a child of `u` is not a child of `t`
        refine hs.removedBy c fun hmem => hut ?_
        rw [← (hok.children c hc).creator, (hself.children c hmem).creator]
      · obtain ⟨-, -, -, -, hremoved, -⟩ := hok.at hk
        refine ⟨hkept hremoved, ?_⟩
        by_cases hkt : k = t
        · rw [hkt] at hk ⊢
          exact hs.letGo u thu hut hu hk
        · exact hs.exitedUps k hkt
      · by_cases hpt : thu.thParent = t
        · rw [hpt, ht] at hp
          cases hp
          obtain ⟨hpc', hload'⟩ := hs.sleeping u thu hut hu hl hpc hload
          exact ⟨th', by rw [hpt, hs.heap, update_self], hpc', hload'⟩
        · exact ⟨p, by rw [hheap hpt, hp], hpc, hload⟩
  · rw [hs.next] at hc
    have hct : c ≠ t := fun he => Nat.not_lt.mpr hc (he ▸ hself.lt)
    have hmem : c ∉ th.listChildren := fun hmem =>
      Nat.not_lt.mpr hc (hself.children c hmem).lt
    rw [hs.waitUps c hct, hs.exitedUps c hct, hs.removedBy c hmem]
    exact h.fresh c hc
  · rw [hs.next] at hc
    have hct : c ≠ t := by
      intro he
      rw [he, hs.heap, update_self] at hnone
      cases hnone
    rw [hheap hct] at hnone
    obtain ⟨hremoved, hwait⟩ := h.gone c hc hnone
    rw [hkept hremoved, hs.creator, hs.waitUps c hct]
    exact ⟨hremoved, hwait⟩
  · rw [hs.creator]
    by_cases hct : c = t
    · rw [hct]
      exact hs.exited
    · rw [hs.exitedUps c hct]
      refine ⟨(h.exited c).1, fun hone => ?_⟩
      have hremoved := (h.exited c).2 hone
      rw [hkept hremoved]
      exact hremoved
  · rcases hs.executed e he with hold | hnew
    · intro hne
      obtain ⟨c, hc, hload, hcreator, hlt⟩ := h.executed e hold hne
      exact ⟨c, hc, hs.loadOk c hload, by rw [hs.creator]; exact hcreator, by rw [hs.next]; exact hlt⟩
    · exact hnew

omit h ht in
theorem ThreadOk.move (h : ThreadOk s t th) (ht : s.heap t = some th) (hheap : s'.heap = update s.heap t (some th'))
    (hsame : s'.next = s.next ∧ s'.creator = s.creator ∧ s'.loadOk = s.loadOk ∧
      s'.removedBy = s.removedBy)
    (hth : th'.tid = th.tid ∧ th'.thParent = th.thParent ∧ th'.listChildren = th.listChildren ∧
      th'.isLoaded = th.isLoaded)
    (hloading : th'.pc.loading = false) (hload : th'.semaLoad ≤ th'.pc.loadUnits)
    (hwait : s'.waitUps t = th'.pc.raisedWait)
    (hexited : th'.semaExited + th'.pc.tookExited = s'.exitedUps t)
    (hplace : Place s' t th.listChildren th'.pc) : ThreadOk s' t th' := by
  obtain ⟨hnext, hcreator, hloadOk, hremoved⟩ := hsame
  obtain ⟨htid, hparent, hchildren, hisLoaded⟩ := hth
  refine ⟨by rw [hnext]; exact h.lt, by rw [htid]; exact h.tid, by rw [hparent, hcreator]; exact h.parent,
    by rw [hchildren]; exact h.nodup, fun c hc => ?_, by rw [hisLoaded, hloadOk]; exact h.loaded,
    fun hpc => ?_, fun hl => ?_, hload, hwait, hexited, by rw [hchildren]; exact hplace⟩
  · rw [hchildren] at hc
    obtain ⟨⟨thc, hthc⟩, hcr, hkept, hlt⟩ := h.children c hc
    refine ⟨?_, by rw [hcreator]; exact hcr, by rw [hremoved]; exact hkept, by rw [hnext]; exact hlt⟩
    rw [hheap]
    obtain ⟨thc', hthc', -⟩ := update_alive ht (fun hl => by rw [hisLoaded]; exact hl) hthc
    exact ⟨thc', hthc'⟩
  · rw [hpc] at hloading
    cases hloading
  · rw [hloading] at hl
    cases hl

/-- **Thread `t` moves**, and nothing is recorded. -/
theorem Inv.put
    (hth : th'.tid = th.tid ∧ th'.thParent = th.thParent ∧ th'.listChildren = th.listChildren ∧
      th'.isLoaded = th.isLoaded)
    (hloading : th'.pc.loading = false) (hload : th'.semaLoad ≤ th'.pc.loadUnits)
    (hwait : th'.pc.raisedWait = th.pc.raisedWait)
    (hexited : th'.semaExited + th'.pc.tookExited = th.semaExited + th.pc.tookExited)
    (hsleeping : ∀ u thu, u ≠ t → s.heap u = some thu → thu.pc.loading = true →
      th.pc = .execDown (tidOf u) → th.semaLoad = 0 → th'.pc = .execDown (tidOf u) ∧ th'.semaLoad = 0)
    (hplace : Place (s.put t th') t th.listChildren th'.pc) : Inv (s.put t th') := by
  have hok := h.threads t th ht
  refine h.local ht ⟨rfl, rfl, rfl, fun _ => id, fun _ _ => rfl, fun _ _ => rfl, fun _ _ => rfl,
    fun _ => .inl, fun hl => ?_, hsleeping, fun _ _ _ _ _ => rfl, h.exited t, ?_⟩
  · rw [hth.2.2.2]
    exact hl
  · exact hok.move ht rfl ⟨rfl, rfl, rfl, rfl⟩ hth hloading hload (hok.waitUps.trans hwait.symm)
      (hexited.trans hok.exitedUps) hplace

/-- **Thread `t` goes to another place** and leaves the semaphores alone. -/
theorem Inv.goto {pc pc' : PC} {status : Int} (hpc : th.pc = pc) (hunits : pc.loadUnits = 0)
    (hpcs : pc'.loading = false ∧ pc'.raisedWait = pc.raisedWait ∧ pc'.tookExited = pc.tookExited)
    (hplace : Place (s.put t { th with exitStatus := status, pc := pc' }) t th.listChildren pc') :
    Inv (s.put t { th with exitStatus := status, pc := pc' }) := by
  subst hpc
  have hload := (h.threads t th ht).semaLoad
  rw [hunits] at hload
  refine h.put ht ⟨rfl, rfl, rfl, rfl⟩ hpcs.1 (Nat.le_trans hload (Nat.zero_le _)) hpcs.2.1
    (congrArg (th.semaExited + ·) hpcs.2.2) (fun u _ _ _ _ hu => ?_) hplace
  -- a thread that sleeps in `process_execute` may have a unit
  rw [hu] at hunits
  cases hunits

omit h ht in
theorem Inv.returns (h : Inv s) (he : Returned s (t, tid)) : Inv (s.returns t tid) := by
  refine ⟨fun u thu hu => ?_, h.fresh, h.gone, h.exited, fun e hmem => ?_⟩
  · exact h.frame hu ⟨Nat.le_refl _, fun _ _ => rfl, fun _ _ => id, rfl, rfl,
      fun c thc _ hthc => ⟨thc, hthc, id⟩, fun _ _ => rfl, fun _ _ => ⟨rfl, rfl⟩,
      fun _ p hp hpc hl => ⟨p, hp, hpc, hl⟩⟩
  · rcases mem_append.mp hmem with hold | hnew
    · exact h.executed e hold
    · rw [mem_singleton.mp hnew]
      exact he

omit h ht in
/-- A child is not being loaded while its parent is somewhere else. -/
theorem Inv.not_loading (h : Inv s) (hk : s.heap k = some th') (hcreator : s.creator k = t)
    (ht : s.heap t = some th) (hpc : th.pc ≠ .execDown (tidOf k)) : th'.pc.loading = false := by
  refine Bool.eq_false_iff.mpr fun hl => ?_
  have hok := h.threads k th' hk
  obtain ⟨p, hp, hppc, -⟩ := hok.loading hl
  rw [hok.parent, hcreator, ht] at hp
  cases hp
  exact hpc hppc

theorem Inv.parent_sleeps (hl : th.pc.loading = true) :
    ∃ p, s.heap th.thParent = some p ∧ p.pc = .execDown (tidOf t) ∧ p.semaLoad = 0 ∧
      th.thParent ≠ t := by
  obtain ⟨p, hp, hpc, hload⟩ := (h.threads t th ht).loading hl
  refine ⟨p, hp, hpc, hload, fun he => ?_⟩
  rw [he, ht] at hp
  cases hp
  rw [hpc] at hl
  cases hl

theorem Inv.children_alive :
    ∀ c ∈ th.listChildren, ∃ thc, s.heap c = some thc ∧ thc.tid = tidOf c := by
  intro c hc
  obtain ⟨thc, hthc⟩ := ((h.threads t th ht).children c hc).alive
  exact ⟨thc, hthc, (h.threads c thc hthc).tid⟩

end

theorem Found.put (h : Found s children tid k) (ht : s.heap t = some th)
    (hl : th.isLoaded = true → th'.isLoaded = true) :
    Found (s.put t th') children tid k := by
  obtain ⟨hv, thk, hthk, hlk⟩ := h
  obtain ⟨thk', hthk', hlk'⟩ := update_alive ht hl hthk
  exact ⟨hv, thk', hthk', hlk' hlk⟩

section
variable (h : Inv s)
include h

section
variable (ht : s.heap t = some th)
include ht

/-- **`thread_create`.** Thread `t` waits for the load, or the new thread loads nothing. -/
theorem Inv.create (hpc : th.pc = .user) {pc pc' : PC}
    (hpcs : pc = .execDown (tidOf s.next) ∧ pc' = .starting ∨ pc = .user ∧ pc' = .user) :
    Inv (s.create t th pc pc') := by
  have hok := h.threads t th ht
  have hnew : s.heap s.next = none := by
    cases hn : s.heap s.next with
    | none => rfl
    | some thn => exact absurd (h.threads _ _ hn).lt (Nat.lt_irrefl _)
  have htn : t ≠ s.next := Nat.ne_of_lt hok.lt
  obtain ⟨hload, hwait, hexited, -⟩ := hok.at hpc
  have hload : th.semaLoad = 0 := Nat.le_zero.mp hload
  obtain ⟨hw0, he0, hr0⟩ := h.fresh s.next (Nat.le_refl _)
  -- the threads afterwards
  have hself : (s.create t th pc pc').heap t =
      some { th with listChildren := th.listChildren ++ [s.next], pc } := update_self ..
  have hchild : (s.create t th pc pc').heap s.next = some (initThread s.next t pc') :=
    (update_of_ne htn.symm ..).trans (update_self ..)
  have hother : ∀ {u}, u ≠ t → u ≠ s.next → (s.create t th pc pc').heap u = s.heap u :=
    fun hut hun => (update_of_ne hut ..).trans (update_of_ne hun ..)
  have hcreator : ∀ c, c ≠ s.next → (s.create t th pc pc').creator c = s.creator c :=
    fun c hc => update_of_ne hc ..
  have hcreator' : (s.create t th pc pc').creator s.next = t := update_self ..
  refine ⟨fun u thu hu => ?_, fun c hc => h.fresh c (Nat.le_of_succ_le hc), fun c hc hnone => ?_,
    fun c => ?_, fun e he hne => ?_⟩
  · by_cases hut : u = t
    · rw [hut, hself] at hu
      cases hu
      rw [hut]
      refine ⟨Nat.lt_succ_of_lt hok.lt, hok.tid, ?_, ?_, fun c hc => ?_, hok.loaded, fun hp => ?_,
        fun hl => ?_, ?_, ?_, ?_, ?_⟩
      · rw [hcreator t htn]
        exact hok.parent
      · refine nodup_append.mpr ⟨hok.nodup, nodup_singleton _, fun a ha b hb hab => ?_⟩
        rw [hab, mem_singleton.mp hb] at ha
        exact Nat.lt_irrefl _ (hok.children _ ha).lt
      · rcases mem_append.mp hc with hc | hc
        · obtain ⟨⟨thc, hthc⟩, hcr, hkept, hlt⟩ := hok.children c hc
          refine ⟨?_, ?_, hkept, Nat.lt_succ_of_lt hlt⟩
          · by_cases hct : c = t
            · exact ⟨_, (congrArg (s.create t th pc pc').heap hct).trans hself⟩
            · exact ⟨thc, (hother hct (Nat.ne_of_lt hlt)).trans hthc⟩
          · rw [hcreator c (Nat.ne_of_lt hlt)]
            exact hcr
        · rw [mem_singleton.mp hc]
          exact ⟨⟨_, hchild⟩, hcreator', hr0, Nat.lt_succ_self _⟩
      · rcases hpcs with ⟨hp', -⟩ | ⟨hp', -⟩ <;> rw [hp'] at hp <;> cases hp
      · rcases hpcs with ⟨hp', -⟩ | ⟨hp', -⟩ <;> rw [hp'] at hl <;> cases hl
      · rw [hload]
        exact Nat.zero_le _
      · rcases hpcs with ⟨rfl, -⟩ | ⟨rfl, -⟩ <;> exact hwait
      · rcases hpcs with ⟨rfl, -⟩ | ⟨rfl, -⟩ <;> exact hexited
      · rcases hpcs with ⟨rfl, -⟩ | ⟨rfl, -⟩
        · exact .inr ⟨s.next, mem_append_right _ (mem_singleton_self _), rfl⟩
        · trivial
    · by_cases hun : u = s.next
      · rw [hun, hchild] at hu
        cases hu
        rw [hun]
        refine ⟨Nat.lt_succ_self _, rfl, hcreator'.symm, nodup_nil, nofun,
          nofun, fun _ => rfl, fun hl => ?_, Nat.zero_le _, ?_, ?_, ?_⟩
        · rcases hpcs with ⟨hp, -⟩ | ⟨-, hp'⟩
          · exact ⟨_, hself, hp, hload⟩
          · rw [hp'] at hl
            cases hl
        · rcases hpcs with ⟨-, rfl⟩ | ⟨-, rfl⟩ <;> exact hw0
        · rcases hpcs with ⟨-, rfl⟩ | ⟨-, rfl⟩ <;> exact he0.symm
        · rcases hpcs with ⟨-, rfl⟩ | ⟨-, rfl⟩ <;> trivial
      · rw [hother hut hun] at hu
        refine h.frame hu ⟨Nat.le_succ _, fun c hc => hcreator c (Nat.ne_of_lt hc), fun _ _ => id,
          rfl, rfl, fun c thc _ hthc => ?_, fun _ _ => rfl, fun _ _ => ⟨rfl, rfl⟩,
          fun _ p hp hppc hl => ?_⟩
        · by_cases hct : c = t
          · rw [hct, ht] at hthc
            cases hthc
            exact ⟨_, (congrArg (s.create t th pc pc').heap hct).trans hself, id⟩
          · exact ⟨thc, (hother hct (Nat.ne_of_lt (h.threads c thc hthc).lt)).trans hthc, id⟩
        · have hpt : thu.thParent ≠ t := by
            intro he
            rw [he, ht] at hp
            cases hp
            rw [hpc] at hppc
            cases hppc
          exact ⟨p, (hother hpt (Nat.ne_of_lt (h.threads _ _ hp).lt)).trans hp, hppc, hl⟩
  · have hcn : c ≠ s.next := by
      intro he
      rw [he, hchild] at hnone
      cases hnone
    have hct : c ≠ t := by
      intro he
      rw [he, hself] at hnone
      cases hnone
    rw [hother hct hcn] at hnone
    rw [hcreator c hcn]
    exact h.gone c (Nat.lt_of_le_of_ne (Nat.lt_succ_iff.mp hc) hcn) hnone
  · refine ⟨(h.exited c).1, fun hone => ?_⟩
    have hcn : c ≠ s.next := by
      intro he
      have hone' : s.exitedUps c = 1 := hone
      rw [he, he0] at hone'
      cases hone'
    rw [hcreator c hcn]
    exact (h.exited c).2 hone
  · obtain ⟨c, hc, hlo, hcr, hlt⟩ := h.executed e he hne
    exact ⟨c, hc, hlo, (hcreator c (Nat.ne_of_lt hlt)).trans hcr, Nat.lt_succ_of_lt hlt⟩

theorem Inv.removed_of_tookExited (hpc : th.pc.tookExited = 1) :
    s.removedBy t = some (s.creator t) ∧ s.exitedUps t = 1 := by
  have hexited := (h.threads t th ht).exitedUps
  have hle := (h.exited t).1
  have hone : s.exitedUps t = 1 := by omega
  exact ⟨(h.exited t).2 hone, hone⟩

/-- **`schedule_tail` destroys a thread** that no list and no pointer leads to. -/
theorem Inv.destroy (hpc : th.pc = .dying) :
    Inv { s with heap := update s.heap t none } := by
  have hok := h.threads t th ht
  obtain ⟨hremoved, hone⟩ := h.removed_of_tookExited ht (by rw [hpc]; rfl)
  have hheap : ∀ {u}, u ≠ t → update s.heap t none u = s.heap u :=
    fun hu => update_of_ne hu ..
  refine ⟨fun u thu hu => ?_, h.fresh, fun c hc hnone => ?_, h.exited, h.executed⟩
  · change update s.heap t none u = _ at hu
    have hut : u ≠ t := by
      intro he
      rw [he, update_self] at hu
      cases hu
    rw [hheap hut] at hu
    have hoku := h.threads u thu hu
    refine h.frame hu ⟨Nat.le_refl _, fun _ _ => rfl, fun _ _ => id, rfl, rfl,
      fun c thc hc hthc => ⟨thc, (hheap ?_).trans hthc, id⟩, fun _ _ => rfl, fun _ _ => ⟨rfl, rfl⟩,
      fun _ p hp hppc hl => ⟨p, (hheap ?_).trans hp, hppc, hl⟩⟩
    · rintro rfl
      rcases hc with hc | hc
      · rw [(hoku.children _ hc).kept] at hremoved
        cases hremoved
      · obtain ⟨-, -, -, -, -, hzero, -⟩ := hoku.at hc
        rw [hzero] at hone
        cases hone
    · intro he
      rw [he, ht] at hp
      cases hp
      rw [hpc] at hppc
      cases hppc
  · change update s.heap t none c = none at hnone
    by_cases hct : c = t
    · rw [hct]
      exact ⟨hremoved, (hok.at hpc).2.1⟩
    · rw [hheap hct] at hnone
      exact h.gone c hc hnone

theorem Inv.load (hpc : th.pc = .starting) (success : Bool) :
    Inv { s.put t { th with isLoaded := success, pc := .loaded success } with
      loadOk := if success then update s.loadOk t true else s.loadOk } := by
  have hok := h.threads t th ht
  have hmono : ∀ c, s.loadOk c = true →
      (if success then update s.loadOk t true else s.loadOk) c = true := by
    intro c hc
    split
    · by_cases hct : c = t
      · rw [hct, update_self]
      · rwa [update_of_ne hct]
    · exact hc
  obtain ⟨p, hp, hppc, hpl, hpt⟩ := h.parent_sleeps ht (by rw [hpc]; rfl)
  refine h.local ht (?_ : Local s _ t th { th with isLoaded := success, pc := .loaded success })
  refine ⟨rfl, rfl, rfl, hmono, fun _ _ => rfl, fun _ _ => rfl, fun _ _ => rfl, fun _ => .inl,
    fun hl => ?_, fun u _ _ _ _ hu => ?_, fun _ _ _ _ _ => rfl, h.exited t, ?_⟩
  · rw [hok.starting hpc] at hl
    cases hl
  · rw [hpc] at hu
    cases hu
  · obtain ⟨hload, hwait, hexited, -⟩ := hok.at hpc
    refine ⟨hok.lt, hok.tid, hok.parent, hok.nodup, fun c hc => ?_, fun hl => ?_,
      nofun, fun _ => ⟨p, (update_of_ne hpt ..).trans hp, hppc, hpl⟩,
      hload, hwait, hexited, trivial⟩
    · obtain ⟨⟨thc, hthc⟩, hcr, hkept, hlt⟩ := hok.children c hc
      refine ⟨?_, hcr, hkept, hlt⟩
      by_cases hct : c = t
      · exact ⟨_, (congrArg _ hct).trans (update_self ..)⟩
      · exact ⟨thc, (update_of_ne hct ..).trans hthc⟩
    · rw [if_pos hl]
      exact update_self ..

theorem Inv.exitUp (hpc : th.pc = .exitUp) :
    Inv { s.put t { th with semaWait := th.semaWait + 1, pc := .exitDown } with
      waitUps := update s.waitUps t (s.waitUps t + 1) } := by
  have hok := h.threads t th ht
  obtain ⟨hload, hwait, hexited, -⟩ := hok.at hpc
  refine h.local ht (?_ : Local s _ t th { th with semaWait := th.semaWait + 1, pc := .exitDown })
  refine ⟨rfl, rfl, rfl, fun _ => id, fun _ _ => rfl, fun c hc => update_of_ne hc ..,
    fun _ _ => rfl, fun _ => .inl, id, fun u _ _ _ _ hu => ?_, fun _ _ _ _ _ => rfl, h.exited t,
    hok.move ht rfl ⟨rfl, rfl, rfl, rfl⟩ ⟨rfl, rfl, rfl, rfl⟩ rfl hload ?_ hexited trivial⟩
  · rw [hpc] at hu
    cases hu
  · show update s.waitUps t (s.waitUps t + 1) t = 1
    rw [update_self, hwait]
    rfl

theorem Inv.waitTake (hpc : th.pc = .waitSearch tid) (hk : k ∈ th.listChildren) :
    Inv { s.put t { th with listChildren := th.listChildren.erase k, pc := .waitUp k } with
      removedBy := update s.removedBy k (some t) } := by
  have hok := h.threads t th ht
  have hlisted := hok.children k hk
  obtain ⟨hload, hwait, hexited, -⟩ := hok.at hpc
  have hother : ∀ {c}, c ≠ k → update s.removedBy k (some t) c = s.removedBy c :=
    fun hc => update_of_ne hc ..
  have halive : ∀ {c thc}, s.heap c = some thc → ∃ thc', update s.heap t
      (some { th with listChildren := th.listChildren.erase k, pc := .waitUp k }) c = some thc' := by
    intro c thc hthc
    exact (update_alive ht (by exact id) hthc).imp fun _ halive => halive.1
  -- a child that is still in the list has not been let go
  have hzero : s.exitedUps k = 0 := by
    have hne : s.exitedUps k ≠ 1 := by
      intro hone
      have hremoved := (h.exited k).2 hone
      rw [hlisted.kept] at hremoved
      cases hremoved
    have := (h.exited k).1
    omega
  refine h.local ht (?_ : Local s _ t th
    { th with listChildren := th.listChildren.erase k, pc := .waitUp k })
  refine ⟨rfl, rfl, rfl, fun _ => id, fun c hc => hother fun he => hc (he ▸ hk), fun _ _ => rfl,
    fun _ _ => rfl, fun _ => .inl, id, fun u _ _ _ _ hu => ?_, fun _ _ _ _ _ => rfl,
    ⟨(h.exited t).1, fun hone => ?_⟩, ?_⟩
  · rw [hpc] at hu
    cases hu
  · have hremoved := (h.exited t).2 hone
    refine (hother ?_).trans hremoved
    rintro rfl
    rw [hlisted.kept] at hremoved
    cases hremoved
  · refine ⟨hok.lt, hok.tid, hok.parent, hok.nodup.erase k, fun c hc => ?_, hok.loaded,
      nofun, nofun, hload, hwait, hexited, ?_⟩
    · obtain ⟨⟨thc, hthc⟩, hcr, hkept, hlt⟩ := hok.children c (mem_of_mem_erase hc)
      have hck : c ≠ k := ((hok.nodup.mem_erase_iff).mp hc).1
      exact ⟨halive hthc, hcr, (hother hck).trans hkept, hlt⟩
    · obtain ⟨thk, hthk⟩ := hlisted.alive
      exact ⟨halive hthk, update_self .., hzero, hlisted.creator⟩

/-- **`sema_exited` is raised**, by the thread that has removed the child. -/
theorem Inv.letGo (hpc : th.pc = .user) (hk : s.heap k = some th')
    (hremoved : s.removedBy k = some t) (hzero : s.exitedUps k = 0) (hcreator : s.creator k = t) :
    Inv { s.put k { th' with semaExited := th'.semaExited + 1 } with
      exitedUps := update s.exitedUps k (s.exitedUps k + 1) } := by
  have hok := h.threads k th' hk
  have hloading := h.not_loading hk hcreator ht (by rw [hpc]; exact nofun)
  have hone : update s.exitedUps k (s.exitedUps k + 1) k = 1 := by
    rw [update_self, hzero]
  refine h.local hk (?_ : Local s _ k th' { th' with semaExited := th'.semaExited + 1 })
  refine ⟨rfl, rfl, rfl, fun _ => id, fun _ _ => rfl, fun _ _ => rfl,
    fun c hc => update_of_ne hc .., fun _ => .inl, id,
    fun u _ _ _ _ hu hl => ⟨hu, hl⟩, fun u thu _ hu hupc => ?_,
    ⟨Nat.le_of_eq hone, fun _ => by rw [hcreator]; exact hremoved⟩, ?_⟩
  · -- only the parent can be there, and it is past it
    obtain ⟨-, -, -, -, hremoved', -⟩ := (h.threads u thu hu).at hupc
    have hut : u = t := Option.some.inj (hremoved'.symm.trans hremoved)
    rw [hut, ht] at hu
    cases hu
    rw [hpc] at hupc
    cases hupc
  · refine hok.move hk rfl ⟨rfl, rfl, rfl, rfl⟩ ⟨rfl, rfl, rfl, rfl⟩ hloading hok.semaLoad hok.waitUps
      ?_ (hok.place.frame (fun c thc _ => update_alive hk (by exact id)) fun j hj => ⟨rfl, ?_, rfl⟩)
    · show th'.semaExited + 1 + th'.pc.tookExited = update s.exitedUps k _ k
      have := hok.exitedUps
      rw [hone]
      omega
    · -- a thread does not wait for itself
      refine update_of_ne ?_ ..
      rintro rfl
      obtain ⟨-, -, -, -, -, -, hself⟩ := hok.at hj
      rw [← hcreator, hself, hk] at ht
      cases ht
      rw [hpc] at hj
      cases hj

/-! ## Steps -/

theorem Inv.searchChild (tid : Int) :
    Lifecycle.searchChild s.heap th.listChildren tid = some none ∨
      ∃ k, Lifecycle.searchChild s.heap th.listChildren tid = some (some k) ∧
        Found s th.listChildren tid k := by
  rcases searchChild_spec (h.children_alive ht) with ⟨hs, -⟩ | ⟨k, thk, hs, hv, hthk, hl⟩
  · exact .inl hs
  · exact .inr ⟨k, hs, hv, thk, hthk, hl⟩

theorem Inv.execReturn (hpc : th.pc = .execSearch tid)
    (hs : s.stepOf t th .execReturn (.execSearch tid) = some s') :
    Inv s' := by
  have hok := h.threads t th ht
  obtain ⟨-, -, -, hplace⟩ := hok.at hpc
  have huser : Inv (s.goto t th .user) := h.goto ht hpc rfl ⟨rfl, rfl, rfl⟩ trivial
  simp only [Procs.stepOf] at hs
  split at hs
  · cases hs
    exact huser.returns fun hne => absurd rfl hne
  · rename_i htid
    obtain ⟨c, hc, rfl⟩ := hplace.resolve_left htid
    rcases h.searchChild ht (tidOf c) with hsc | ⟨k, hsc, hv, thk, hthk, hl⟩
    · simp only [hsc] at hs
      cases hs
      exact huser.returns fun hne => absurd rfl hne
    · -- the child that was created is the one that is found
      rw [visited_of_mem hc] at hv
      cases hv
      simp only [hsc, hthk, Option.map_some, hl, if_true] at hs
      cases hs
      refine huser.returns fun _ => ⟨c, rfl, (h.threads c thk hthk).loaded hl, ?_⟩
      exact ⟨(hok.children c hc).creator, (hok.children c hc).lt⟩

theorem Inv.loadUp {success : Bool} (hpc : th.pc = .loaded success)
    (hs : s.stepOf t th .loadUp (.loaded success) = some s') : Inv s' := by
  have hok := h.threads t th ht
  obtain ⟨p, hp, hppc, hpl, hpt⟩ := h.parent_sleeps ht (by rw [hpc]; rfl)
  have hmoved : Inv (s.goto t th (if success then .user else .exitUp)) := by
    refine h.goto ht hpc rfl ?_ ?_
    · cases success <;> exact ⟨rfl, rfl, rfl⟩
    · cases success <;> trivial
  have hp' : (s.goto t th (if success then .user else .exitUp)).heap th.thParent = some p :=
    (update_of_ne hpt ..).trans hp
  simp only [Procs.stepOf, hp', Option.map_some] at hs
  cases hs
  have hokp := hmoved.threads _ _ hp'
  refine hmoved.put hp' ⟨rfl, rfl, rfl, rfl⟩ (by rw [hppc]; rfl) ?_ rfl rfl
    (fun u thu hup hu hl hpu => ?_) ?_
  · rw [hpl, hppc]
    exact Nat.le_refl 1
  · -- the parent waits for `t`, which is not being loaded any more
    rw [hppc] at hpu
    rw [← tidOf_inj.mp (PC.execDown.inj hpu)] at hu
    rw [show (s.goto t th _).heap t = _ from update_self ..] at hu
    cases hu
    cases success <;> cases hl
  · rw [hppc]
    exact (hokp.at hppc).2.2.2

theorem Inv.waitDown (hpc : th.pc = .waitDown k tid)
    (hs : s.stepOf t th .waitDown (.waitDown k tid) = some s') :
    Inv s' := by
  have hok := h.threads t th ht
  have hfound : Found s th.listChildren tid k := (hok.at hpc).2.2.2
  have hmoved : Inv (s.goto t th (.waitSearch tid)) :=
    h.goto ht hpc rfl ⟨rfl, rfl, rfl⟩ ⟨k, hfound.put ht id⟩
  have ht' : (s.goto t th (.waitSearch tid)).heap t = some { th with pc := .waitSearch tid } :=
    update_self ..
  have hlisted := (hmoved.threads t _ ht').children k (visited_mem hfound.1)
  obtain ⟨thk, hthk⟩ := hlisted.alive
  simp only [Procs.stepOf, hthk, Option.bind_some] at hs
  split at hs
  · cases hs
  · cases hs
    have hokk := hmoved.threads k thk hthk
    have hloading := hmoved.not_loading hthk hlisted.creator ht' nofun
    exact hmoved.put hthk ⟨rfl, rfl, rfl, rfl⟩ hloading hokk.semaLoad rfl rfl
      (fun u _ _ _ _ hu hl => ⟨hu, hl⟩)
      (hokk.place.frame (fun c thc _ => update_alive hthk (by exact id)) fun j _ => ⟨rfl, rfl, rfl⟩)

theorem Inv.waitUp (hpc : th.pc = .waitUp k) (hs : s.stepOf t th .waitUp (.waitUp k) = some s') :
    Inv s' := by
  have hok := h.threads t th ht
  obtain ⟨-, -, -, ⟨thk, hthk⟩, hremoved, hzero, hcreator⟩ := hok.at hpc
  have hmoved : Inv (s.goto t th .user) := h.goto ht hpc rfl ⟨rfl, rfl, rfl⟩ trivial
  have ht' : (s.goto t th .user).heap t = some { th with pc := .user } := update_self ..
  obtain ⟨thk', hthk', -⟩ : ∃ thk', (s.goto t th .user).heap k = some thk' ∧ _ :=
    update_alive ht (by exact id) hthk
  simp only [Procs.stepOf, hthk', Option.map_some] at hs
  cases hs
  exact hmoved.letGo ht' rfl hthk' hremoved hzero hcreator

end

theorem Inv.step {a : Nat × Act} (hstep : s.step a = some s') : Inv s' := by
  obtain ⟨t, a⟩ := a
  obtain ⟨th, ht, hs⟩ := Option.bind_eq_some_iff.mp hstep
  change s.stepOf t th a th.pc = some s' at hs
  have hok := h.threads t th ht
  generalize hpc : th.pc = pc at hs
  have hs' := hs
  unfold Procs.stepOf at hs
  split at hs
  · cases hs
    exact h.returns fun hne => absurd rfl hne
  · cases hs
    exact h.create ht hpc (Or.inl ⟨rfl, rfl⟩)
  · cases hs
    exact h.goto ht hpc rfl ⟨rfl, rfl, rfl⟩ (Or.inl rfl)
  · cases hs
    exact h.create ht hpc (Or.inr ⟨rfl, rfl⟩)
  · cases hs
    exact h.load ht hpc _
  · exact h.loadUp ht hpc hs'
  · -- `sema_load` is downed: the load is over
    split at hs
    · cases hs
    · rename_i hne
      cases hs
      obtain ⟨hload, -, -, hplace⟩ := hok.at hpc
      exact h.put ht ⟨rfl, rfl, rfl, rfl⟩ rfl (Nat.sub_le_sub_right hload 1) (by rw [hpc]; rfl)
        (by rw [hpc]; rfl) (fun _ _ _ _ _ _ h0 => absurd h0 hne) hplace
  · exact h.execReturn ht hpc hs'
  · rename_i tid
    split at hs
    · cases hs
      exact h
    · rcases h.searchChild ht tid with hsc | ⟨k, hsc, hfound⟩
      · simp only [hsc] at hs
        cases hs
        exact h
      · simp only [hsc] at hs
        cases hs
        exact h.goto ht hpc rfl ⟨rfl, rfl, rfl⟩ (hfound.put ht id)
  · exact h.waitDown ht hpc hs'
  · rename_i tid
    rcases h.searchChild ht tid with hsc | ⟨k, hsc, hfound⟩
    · simp only [hsc] at hs
      cases hs
    · simp only [hsc] at hs
      cases hs
      exact h.waitTake ht hpc (visited_mem hfound.1)
  · exact h.waitUp ht hpc hs'
  · cases hs
    exact h.goto ht hpc rfl ⟨rfl, rfl, rfl⟩ trivial
  · cases hs
    exact h.goto ht hpc rfl ⟨rfl, rfl, rfl⟩ trivial
  · cases hs
    exact h.exitUp ht hpc
  · split at hs
    · cases hs
    · rename_i hne
      cases hs
      refine h.put ht ⟨rfl, rfl, rfl, rfl⟩ rfl (hok.at hpc).1 (by rw [hpc]; rfl) ?_
        (fun _ _ _ _ _ hu => ?_) trivial
      · rw [hpc]
        show th.semaExited - 1 + 1 = th.semaExited + 0
        omega
      · rw [hpc] at hu
        cases hu
  · cases hs
    exact h.goto ht hpc rfl ⟨rfl, rfl, rfl⟩ trivial
  · split at hs
    · cases hs
    · cases hs
      exact h.destroy ht hpc
  · cases hs

end

/-! ## Runs -/

def PC.child? : PC → Option Nat
  | .waitDown k _ | .waitUp k => some k
  | _ => none

/-- What `process_execute`, `process_wait` and `process_exit` keep. -/
structure Safe (s : Procs) : Prop where
  /-- A thread that waits to be destroyed has been removed by its parent, and it is in no list. -/
  dying : ∀ t th, s.heap t = some th → th.pc = .dying → s.removedBy t = some (s.creator t) ∧
    ∀ u thu, s.heap u = some thu → t ∉ thu.listChildren
  destroyed : ∀ c, c < s.next → s.heap c = none → s.removedBy c = some (s.creator c)
  /-- `search_child` looks at threads that are not destroyed, whatever it searches. -/
  searched : ∀ t th, s.heap t = some th → (∀ c ∈ th.listChildren, (s.heap c).isSome = true) ∧
    ∀ tid, (searchChild s.heap th.listChildren tid).isSome = true
  /-- So does `process_wait`, and its second `search_child` finds a child. -/
  waited : ∀ t th, s.heap t = some th → (∀ k, th.pc.child? = some k → (s.heap k).isSome = true) ∧
    ∀ tid, th.pc = .waitSearch tid →
      ∃ k, searchChild s.heap th.listChildren tid = some (some k) ∧ (s.heap k).isSome = true
  wait_once : ∀ c, s.waitUps c ≤ 1
  exited_once : ∀ c, s.exitedUps c ≤ 1
  /-- A tid that `process_execute` has returned is that of a child that was loaded. -/
  executed : ∀ t tid, (t, tid) ∈ s.executed → tid ≠ TID_ERROR →
    ∃ c, tid = tidOf c ∧ s.creator c = t ∧ s.loadOk c = true

theorem start_inv : Inv Procs.start := by
  have hother : ∀ {t}, t ≠ 0 → Procs.start.heap t = none := by
    intro t ht
    show update (fun _ => none) 0 _ t = none
    exact update_of_ne ht ..
  have hself : Procs.start.heap 0 = some (initThread 0 0 .user) := rfl
  refine ⟨fun t th ht => ?_, fun c _ => ⟨rfl, rfl, rfl⟩, fun c hc hnone => ?_,
    fun c => ⟨Nat.zero_le 1, nofun⟩, nofun⟩
  · have ht0 : t = 0 := by
      by_contra h0
      rw [hother h0] at ht
      cases ht
    rw [ht0, hself] at ht
    cases ht
    rw [ht0]
    exact ⟨by decide, rfl, rfl, nodup_nil, nofun, nofun,
      fun _ => rfl, nofun, Nat.zero_le _, rfl, rfl, trivial⟩
  · rw [Nat.lt_one_iff.mp hc, hself] at hnone
    cases hnone

theorem Inv.safe (h : Inv s) : Safe s := by
  have halive : ∀ {c th}, s.heap c = some th → (s.heap c).isSome = true := fun hc => by rw [hc]; rfl
  refine ⟨fun t th ht hpc => ?_, fun c hc hnone => (h.gone c hc hnone).1, fun t th ht => ?_,
    fun t th ht => ?_, fun c => ?_, fun c => (h.exited c).1, fun t tid hmem hne => ?_⟩
  · have hremoved := (h.removed_of_tookExited ht (by rw [hpc]; rfl)).1
    refine ⟨hremoved, fun u thu hu hmem => ?_⟩
    rw [((h.threads u thu hu).children t hmem).kept] at hremoved
    cases hremoved
  · refine ⟨fun c hc => ?_, fun tid => ?_⟩
    · obtain ⟨thc, hthc, -⟩ := h.children_alive ht c hc
      exact halive hthc
    · rcases h.searchChild ht tid with hs | ⟨k, hs, -⟩ <;> rw [hs] <;> rfl
  · have hok := h.threads t th ht
    refine ⟨fun k hk => ?_, fun tid hpc => ?_⟩
    · generalize hpc : th.pc = pc at hk
      obtain ⟨-, -, -, hplace⟩ := hok.at hpc
      cases pc with
      | waitDown k' tid =>
        cases hk
        obtain ⟨-, thk, hthk, -⟩ := hplace
        exact halive hthk
      | waitUp k' =>
        cases hk
        obtain ⟨⟨thk, hthk⟩, -⟩ := hplace
        exact halive hthk
      | _ => cases hk
    · obtain ⟨-, -, -, k, hv, thk, hthk, hl⟩ := hok.at hpc
      rcases searchChild_spec (h.children_alive ht) with ⟨-, hnone⟩ | ⟨k', thk', hs, hv', hthk', -⟩
      · rw [hnone k thk hv hthk] at hl
        cases hl
      · exact ⟨k', hs, halive hthk'⟩
  · -- raised on the way out only
    by_cases hc : c < s.next
    · cases hth : s.heap c with
      | none => exact Nat.le_of_eq (h.gone c hc hth).2
      | some th =>
        rw [(h.threads c th hth).waitUps]
        cases th.pc <;> simp [PC.raisedWait]
    · rw [(h.fresh c (Nat.not_lt.mp hc)).1]
      exact Nat.zero_le 1
  · obtain ⟨c, hc, hload, hcreator, -⟩ := h.executed _ hmem hne
    exact ⟨c, hc, hcreator, hload⟩

/-- **A thread is destroyed after its parent has removed it**, whatever the interleaving. -/
theorem destroyed_after_wait {as : List (Nat × Act)}
    (hrun : Run Procs.step (fun _ _ => True) Procs.start as s) : Safe s :=
  (hrun.invariant (fun _ _ _ hs _ hstep => hs.step hstep) start_inv).safe

end

/-- A child is created, loaded, waited for and destroyed. -/
theorem destroyed_after_wait_one_child :
    ∃ s, Run Procs.step (fun _ _ => True) Procs.start
        [(0, .exec true), (1, .load true), (1, .loadUp), (0, .execDown), (0, .execReturn),
          (0, .wait 2), (1, .exit (some 7)), (1, .exitUp), (0, .waitDown), (0, .waitTake),
          (0, .waitUp), (1, .exitDown), (1, .die), (1, .destroy)] s ∧
      (s.heap 1).isNone = true ∧ s.executed = [(0, 2)] ∧ Safe s := by
  refine Run.exists_guarded (fun s => (s.heap 1).isNone = true ∧ s.executed = [(0, 2)])
    (by decide +kernel) fun s hrun hs => ?_
  exact ⟨hs.1, hs.2, destroyed_after_wait hrun⟩

end Pintos.UserProg.Lifecycle
