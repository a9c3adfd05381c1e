import Pintos.Lib.Queues
import Pintos.Threads.Synch

/-!
# The scheduler (`threads/thread.c`)

A `struct thread` has one link, `elem`, which `ready_list`, `sleep_list` and the waiters
of every semaphore share. Interrupts are off whenever the scheduler or a semaphore
looks at these lists, so each of these sections is one step; between two steps the timer
interrupt may wake sleepers and make the running thread yield.

The idle thread is an exception everywhere: it is in `ready_list` until it has stored
itself in `idle_thread`, and in no list after that; `next_thread_to_run` picks it when
the list is empty. It only raises a semaphore, blocks and is interrupted.

Each insertion into `ready_list` is stamped with the number of insertions before it; the
program does not read the stamps.
-/

namespace Pintos.Threads

open Lib Function List

/-! ## The machine -/

inductive Status where
  | running
  | ready
  | blocked
  | dying
deriving DecidableEq

/-- The lists that the `elem` of a thread can be in. -/
inductive Place (σ : Type) where
  | readyList
  | sleepList
  | waiters (x : σ)
deriving DecidableEq

def Place.status {σ : Type} : Place σ → Status
  | .readyList => .ready
  | .sleepList => .blocked
  | .waiters _ => .blocked

def PRI_MIN : Int := 0
def PRI_DEFAULT : Int := 31
def PRI_MAX : Int := 63

structure Sched (τ σ : Type) where
  /-- The members of `struct thread`; a thread that is not allocated has no status. -/
  status : τ → Option Status
  priority : τ → Int
  wakeupTime : τ → Int
  initialThread : τ
  idleThread : Option τ
  /-- `running_thread ()` -/
  running : τ
  lists : Place σ → List τ
  value : σ → UInt32
  /-- The thread is in `thread_create`, before its `thread_unblock`. -/
  newborn : τ → Bool
  /-- When the thread was last put into `ready_list`, and the number of insertions. -/
  stamp : τ → Nat
  clock : Nat

inductive SchedAct (τ σ : Type) where
  /-- `thread_create`: `init_thread` -/
  | create (t : τ) (priority : Int)
  /-- `thread_create`: `thread_unblock` -/
  | start (t : τ)
  /-- `idle`: `idle_thread = thread_current ()` -/
  | becomeIdle
  /-- the loop in `idle` -/
  | idleBlock
  /-- one round of the loop in `sema_down` -/
  | down (x : σ)
  | up (x : σ)
  | setWakeupTime (time : Int)
  | sleep
  | wakeup (ticks : Int)
  | yield
  | exit
  | setPriority (priority : Int)

variable {τ σ : Type}

namespace Sched

/-- `thread_init`, with some semaphores. -/
def init [DecidableEq τ] (t : τ) (value : σ → UInt32) : Sched τ σ where
  status := update (fun _ => none) t (some .running)
  priority := fun _ => PRI_DEFAULT
  wakeupTime := fun _ => 0
  initialThread := t
  idleThread := none
  running := t
  lists := fun _ => []
  value := value
  newborn := fun _ => false
  stamp := fun _ => 0
  clock := 0

variable [DecidableEq τ] [DecidableEq σ]

def setStatus (s : Sched τ σ) (t : τ) (status : Status) : Sched τ σ :=
  { s with status := update s.status t (some status) }

def setList (s : Sched τ σ) (p : Place σ) (l : List τ) : Sched τ σ :=
  { s with lists := update s.lists p l }

/-- `list_insert_ordered (&ready_list, &t->elem, compare_priority, 0)` -/
def pushReady (s : Sched τ σ) (t : τ) : Sched τ σ :=
  { s.setList .readyList
      ((s.lists .readyList).orderedInsert (fun a b => s.priority b < s.priority a) t) with
    stamp := update s.stamp t s.clock
    clock := s.clock + 1 }

def threadUnblock (s : Sched τ σ) (t : τ) : Option (Sched τ σ) :=
  -- ASSERT (t->status == THREAD_BLOCKED)
  if s.status t = some .blocked then some ((s.pushReady t).setStatus t .ready) else none

def nextThreadToRun (s : Sched τ σ) : Option τ × List τ :=
  match s.lists .readyList with
  | [] => (s.idleThread, [])
  | t :: rest => (some t, rest)

def scheduleTail (s : Sched τ σ) (prev : Option τ) : Sched τ σ :=
  let s' := s.setStatus s.running .running
  match prev with
  | none => s'
  | some prev =>
    if s'.status prev = some .dying ∧ prev ≠ s.initialThread then
      { s' with status := update s'.status prev none }
    else s'

def schedule (s : Sched τ σ) : Option (Sched τ σ) :=
  match s.nextThreadToRun with
  -- ASSERT (is_thread (next))
  | (none, _) => none
  | (some next, rest) =>
    let s' := { s.setList .readyList rest with running := next }
    some (s'.scheduleTail (if s.running ≠ next then some s.running else none))

def threadBlock (s : Sched τ σ) : Option (Sched τ σ) :=
  (s.setStatus s.running .blocked).schedule

def threadSleep (s : Sched τ σ) : Option (Sched τ σ) :=
  (s.setList .sleepList ((s.lists .sleepList).orderedInsert
    (fun a b => s.wakeupTime a < s.wakeupTime b) s.running)).threadBlock

/-- The loop of `thread_wakeup`, at the given rest of `sleep_list`. -/
def wakeLoop (ticks : Int) : List τ → Sched τ σ → Option (Sched τ σ)
  | [], s => some s
  | t :: rest, s =>
    if s.wakeupTime t ≤ ticks then
      ((s.setList .sleepList rest).threadUnblock t).bind (wakeLoop ticks rest)
    else some s

def threadWakeup (s : Sched τ σ) (ticks : Int) : Option (Sched τ σ) :=
  wakeLoop ticks (s.lists .sleepList) s

def threadYield (s : Sched τ σ) : Option (Sched τ σ) :=
  let s' := if s.idleThread = some s.running then s else s.pushReady s.running
  (s'.setStatus s.running .ready).schedule

def threadExit (s : Sched τ σ) : Option (Sched τ σ) :=
  (s.setStatus s.running .dying).schedule

def sema (s : Sched τ σ) (x : σ) : Semaphore τ := ⟨s.value x, s.lists (.waiters x)⟩

def setSema (s : Sched τ σ) (x : σ) (sema : Semaphore τ) : Sched τ σ :=
  { s.setList (.waiters x) sema.waiters with value := update s.value x sema.value }

/-- One step of the running thread, or of an interrupt handler on its stack. The idle thread
makes no call that could put it into a list. -/
def step (s : Sched τ σ) : SchedAct τ σ → Option (Sched τ σ)
  | .create t priority =>
    if s.idleThread ≠ some s.running ∧ s.status t = none ∧ PRI_MIN ≤ priority ∧
        priority ≤ PRI_MAX then
      some { s.setStatus t .blocked with
        priority := update s.priority t priority
        wakeupTime := update s.wakeupTime t 0
        newborn := update s.newborn t true }
    else none
  | .start t =>
    if s.idleThread ≠ some s.running ∧ s.newborn t = true then
      { s with newborn := update s.newborn t false }.threadUnblock t
    else none
  | .becomeIdle =>
    if s.idleThread = none then some { s with idleThread := some s.running } else none
  | .idleBlock => if s.idleThread = some s.running then s.threadBlock else none
  | .down x =>
    if s.idleThread ≠ some s.running then
      match semaTest (s.sema x) s.running with
      | (false, sema) => (s.setSema x sema).threadBlock
      | (true, sema) => some (s.setSema x sema)
    else none
  | .up x =>
    match semaUp (s.sema x) with
    | (none, sema) => some (s.setSema x sema)
    | (some t, sema) => (s.setSema x sema).threadUnblock t
  | .setWakeupTime time =>
    some { s with wakeupTime := update s.wakeupTime s.running time }
  | .sleep => if s.idleThread ≠ some s.running then s.threadSleep else none
  | .wakeup ticks => s.threadWakeup ticks
  | .yield => s.threadYield
  | .exit => if s.idleThread ≠ some s.running then s.threadExit else none
  | .setPriority priority =>
    some { s with priority := update s.priority s.running priority }

end Sched

/-! ## The lists -/

/-- A thread in a list of its status, and not one that the scheduler keeps out of them. -/
structure Listed (s : Sched τ σ) (p : Place σ) (t : τ) : Prop where
  status : s.status t = some p.status
  idle : s.idleThread ≠ some t
  newborn : s.newborn t = false

/-- What holds of the lists, while a thread runs and in the middle of a switch. -/
structure Queues (s : Sched τ σ) : Prop where
  exclusive : Exclusive s.lists
  listed : ∀ p t, t ∈ s.lists p → Listed s p t
  ready : ∀ t, s.status t = some .ready → s.idleThread ≠ some t → t ∈ s.lists .readyList
  sorted : (s.lists .readyList).Pairwise (Before s.priority s.stamp)
  stamped : ∀ t ∈ s.lists .readyList, s.stamp t < s.clock
  newborn : ∀ t, s.newborn t = true → s.status t = some .blocked ∧ s.idleThread ≠ some t
  idle : ∀ t, s.idleThread = some t → s.status t ≠ none ∧ s.status t ≠ some .dying

/-- One thread runs. -/
structure SchedInv (s : Sched τ σ) : Prop extends Queues s where
  running : ∀ t, s.status t = some .running ↔ t = s.running

/-- In the middle of a switch no thread runs. -/
structure Switching (s : Sched τ σ) : Prop extends Queues s where
  none_running : ∀ t, s.status t ≠ some .running

section
variable {s s' : Sched τ σ} {t u : τ} {p : Place σ}

theorem Queues.not_mem (h : Queues s) (ht : ∀ p : Place σ, s.status t ≠ some p.status)
    (p : Place σ) : t ∉ s.lists p :=
  fun hmem => ht p (h.listed p t hmem).status

theorem SchedInv.running_not_mem (h : SchedInv s) (p : Place σ) : s.running ∉ s.lists p := by
  refine h.not_mem (fun q => ?_) p
  rw [(h.running s.running).mpr rfl]
  cases q <;> simp [Place.status]

theorem SchedInv.running_not_newborn (h : SchedInv s) : s.newborn s.running = false := by
  refine Bool.eq_false_iff.mpr fun hnew => ?_
  have := (h.newborn _ hnew).1
  rw [(h.running s.running).mpr rfl] at this
  cases this

theorem Queues.newborn_not_mem (h : Queues s) (ht : s.newborn t = true) (p : Place σ) :
    t ∉ s.lists p := by
  intro hmem
  rw [(h.listed p t hmem).newborn] at ht
  cases ht

section
variable [DecidableEq σ] {l : List τ}

theorem setList_self : (s.setList p l).lists p = l := update_self ..

theorem setList_of_ne {q : Place σ} (hq : q ≠ p) : (s.setList p l).lists q = s.lists q :=
  update_of_ne hq ..

/-- **Threads leave a list** in which they were blocked. -/
theorem Queues.shrink (h : Queues s) (hp : p ≠ .readyList) (hl : l.Sublist (s.lists p)) :
    Queues (s.setList p l) := by
  have hready : (s.setList p l).lists .readyList = s.lists .readyList := setList_of_ne hp.symm
  refine ⟨h.exclusive.shrink hl, fun q u hu => ?_, fun u hu hidle => ?_, ?_, ?_, h.newborn, h.idle⟩
  · have hmem : u ∈ s.lists q := by
      by_cases hq : q = p
      · rw [hq, setList_self] at hu
        rw [hq]
        exact hl.subset hu
      · rwa [setList_of_ne hq] at hu
    obtain ⟨hstatus, hidle, hn⟩ := h.listed q u hmem
    exact ⟨hstatus, hidle, hn⟩
  · rw [hready]
    exact h.ready u hu hidle
  · rw [hready]
    exact h.sorted
  · rw [hready]
    exact h.stamped

end

variable [DecidableEq τ]

/-- **The status of a thread in no list changes** to one that needs no list. -/
theorem Queues.setStatus (h : Queues s) (ht : ∀ p, t ∉ s.lists p) (hnew : s.newborn t = false)
    (status : Status) (hready : status = .ready → s.idleThread = some t)
    (hdying : status = .dying → s.idleThread ≠ some t) : Queues (s.setStatus t status) := by
  have hother : ∀ u, u ≠ t → (s.setStatus t status).status u = s.status u := fun u hu =>
    update_of_ne hu ..
  have hself : (s.setStatus t status).status t = some status := update_self ..
  refine ⟨h.exclusive, fun p u hu => ?_, fun u hu hidle => ?_, h.sorted, h.stamped,
    fun u hu => ?_, fun u hu => ?_⟩
  · have hut : u ≠ t := fun he => ht p (he ▸ hu)
    obtain ⟨hstatus, hidle, hn⟩ := h.listed p u hu
    exact ⟨(hother u hut).trans hstatus, hidle, hn⟩
  · by_cases hut : u = t
    · rw [hut, hself] at hu
      exact absurd (hready (Option.some.inj hu)) (hut ▸ hidle)
    · rw [hother u hut] at hu
      exact h.ready u hu hidle
  · have hut : u ≠ t := by
      intro he
      have hu' : s.newborn u = true := hu
      rw [he, hnew] at hu'
      cases hu'
    obtain ⟨hstatus, hidle⟩ := h.newborn u hu
    exact ⟨(hother u hut).trans hstatus, hidle⟩
  · by_cases hut : u = t
    · rw [hut, hself]
      refine ⟨by simp, fun hd => ?_⟩
      exact hdying (Option.some.inj hd) (hut ▸ hu)
    · rw [hother u hut]
      exact h.idle u hu

variable [DecidableEq σ] {l : List τ}

theorem Queues.listed_enter (h : Queues s) (hidle : s.idleThread ≠ some t)
    (hnew : s.newborn t = false) (hl : l.Perm (t :: s.lists p)) (ht : ∀ q, t ∉ s.lists q)
    (q : Place σ) (u : τ) (hu : u ∈ (s.setList p l).lists q) :
    Listed ((s.setList p l).setStatus t p.status) q u := by
  by_cases hut : u = t
  · have hq : q = p := by
      by_contra hq
      rw [setList_of_ne hq, hut] at hu
      exact ht q hu
    rw [hut, hq]
    exact ⟨update_self .., hidle, hnew⟩
  · have hmem : u ∈ s.lists q := by
      by_cases hq : q = p
      · rw [hq, setList_self, hl.mem_iff] at hu
        rw [hq]
        exact (mem_cons.mp hu).resolve_left hut
      · rwa [setList_of_ne hq] at hu
    obtain ⟨hstatus, hidle', hn⟩ := h.listed q u hmem
    exact ⟨(update_of_ne hut ..).trans hstatus, hidle', hn⟩

variable (h : Queues s) (ht : ∀ q, t ∉ s.lists q) (hidle : s.idleThread ≠ some t)
  (hnew : s.newborn t = false)
include h ht hidle hnew

theorem Queues.block (hp : p ≠ .readyList) (hl : l.Perm (t :: s.lists p)) :
    Queues ((s.setList p l).setStatus t .blocked) := by
  have hstatus : p.status = .blocked := by
    cases p with
    | readyList => exact absurd rfl hp
    | sleepList => rfl
    | waiters x => rfl
  have hready : (s.setList p l).lists .readyList = s.lists .readyList := setList_of_ne hp.symm
  have hlisted := h.listed_enter hidle hnew hl ht
  rw [hstatus] at hlisted
  obtain ⟨-, -, hready', hsorted, hstamped, hnewborn, hidle'⟩ :=
    h.setStatus ht hnew .blocked nofun nofun
  refine ⟨h.exclusive.enter ht hl, hlisted, fun u hu hui => ?_, ?_, ?_, hnewborn, hidle'⟩
  · show u ∈ (s.setList p l).lists .readyList
    rw [hready]
    exact hready' u hu hui
  · show ((s.setList p l).lists .readyList).Pairwise _
    rw [hready]
    exact hsorted
  · show ∀ u ∈ (s.setList p l).lists .readyList, _
    rw [hready]
    exact hstamped

theorem Queues.pushReady : Queues ((s.pushReady t).setStatus t .ready) := by
  have hperm := perm_orderedInsert (fun a b => s.priority b < s.priority a) t
    (s.lists .readyList)
  have hlists : ((s.pushReady t).setStatus t .ready).lists .readyList =
      (s.lists .readyList).orderedInsert (fun a b => s.priority b < s.priority a) t := by
    show update s.lists .readyList _ .readyList = _
    exact update_self ..
  have hstamp : ∀ u ∈ s.lists .readyList, update s.stamp t s.clock u = s.stamp u :=
    fun u hu => update_of_ne (fun he : u = t => ht .readyList (he ▸ hu)) ..
  have hself : update s.stamp t s.clock t = s.clock := update_self ..
  refine ⟨h.exclusive.enter ht hperm, fun q u hu => ?_, fun u hu hui => ?_, ?_, fun u hu => ?_,
    fun u hu => ?_, fun u hu => ?_⟩
  · obtain ⟨hstatus, hidle', hn⟩ := h.listed_enter hidle hnew hperm ht q u hu
    exact ⟨hstatus, hidle', hn⟩
  · rw [hlists, hperm.mem_iff]
    by_cases hut : u = t
    · rw [hut]
      exact mem_cons_self
    · have hu' : s.status u = some .ready := (update_of_ne hut ..).symm.trans hu
      exact mem_cons_of_mem _ (h.ready u hu' hui)
  · rw [hlists]
    refine pairwise_before_orderedInsert (pairwise_before_congr (fun _ _ => rfl) hstamp h.sorted)
      fun u hu => ?_
    show update s.stamp t s.clock u < update s.stamp t s.clock t
    rw [hstamp u hu, hself]
    exact h.stamped u hu
  · rw [hlists, hperm.mem_iff] at hu
    show update s.stamp t s.clock u < s.clock + 1
    rcases mem_cons.mp hu with rfl | hu
    · rw [hself]
      exact Nat.lt_succ_self _
    · rw [hstamp u hu]
      exact Nat.lt_succ_of_lt (h.stamped u hu)
  · have hut : u ≠ t := by
      intro he
      have hu' : s.newborn u = true := hu
      rw [he, hnew] at hu'
      cases hu'
    obtain ⟨hstatus, hidle'⟩ := h.newborn u hu
    exact ⟨(update_of_ne hut ..).trans hstatus, hidle'⟩
  · have hut : u ≠ t := fun he => hidle (he ▸ hu)
    show update s.status t _ u ≠ none ∧ update s.status t _ u ≠ some .dying
    rw [update_of_ne hut]
    exact h.idle u hu

end

/-! ## Switching threads -/

section
variable {s s' : Sched τ σ} {t u : τ} [DecidableEq τ]

theorem SchedInv.destroy (h : SchedInv s) (hu : s.status u = some .dying) :
    SchedInv { s with status := update s.status u none } := by
  have hne : ∀ {v st}, s.status v = some st → st ≠ .dying → v ≠ u := by
    intro v st hv hst he
    rw [he, hu] at hv
    exact hst (Option.some.inj hv).symm
  have hsame : ∀ {v st}, update s.status u none v = some st → s.status v = some st := by
    intro v st hv
    by_cases hvu : v = u
    · rw [hvu, update_self] at hv
      cases hv
    · rwa [update_of_ne hvu] at hv
  have hkeep : ∀ {v st}, s.status v = some st → st ≠ .dying →
      update s.status u none v = some st := fun hv hst =>
    (update_of_ne (hne hv hst) ..).trans hv
  refine ⟨⟨h.exclusive, fun p v hv => ?_, fun v hv hidle => h.ready v (hsame hv) hidle, h.sorted,
    h.stamped, fun v hv => ?_, fun v hv => ?_⟩, fun v => ⟨fun hv => (h.running v).mp (hsame hv), ?_⟩⟩
  · obtain ⟨hstatus, hidle, hn⟩ := h.listed p v hv
    exact ⟨hkeep hstatus (by cases p <;> simp [Place.status]), hidle, hn⟩
  · obtain ⟨hstatus, hidle⟩ := h.newborn v hv
    exact ⟨hkeep hstatus (by simp), hidle⟩
  · obtain ⟨hnone, hdying⟩ := h.idle v hv
    have hvu : v ≠ u := fun he => hdying (he ▸ hu)
    show update s.status u none v ≠ none ∧ update s.status u none v ≠ _
    rw [update_of_ne hvu]
    exact ⟨hnone, hdying⟩
  · exact fun hv => hkeep ((h.running v).mpr hv) (by simp)

variable [DecidableEq σ] {rest : List τ}

/-- **The next thread runs.** It was the first of `ready_list`, or it is the idle thread and
the list is empty. -/
theorem Switching.resume (h : Switching s)
    (ht : s.lists .readyList = t :: rest ∨
      s.lists .readyList = [] ∧ rest = [] ∧ s.idleThread = some t) :
    SchedInv { (s.setList .readyList rest).setStatus t .running with running := t } := by
  have hsub : rest.Sublist (s.lists .readyList) := by
    rcases ht with ht | ⟨-, hrest, -⟩
    · rw [ht]
      exact sublist_cons_self t rest
    · rw [hrest]
      exact nil_sublist _
  -- `t` is in no list any more
  have hout : ∀ p, t ∉ (s.setList .readyList rest).lists p := by
    intro p hmem
    rcases ht with ht | ⟨-, hrest, hidle⟩
    · have hnodup := h.exclusive.nodup .readyList
      rw [ht] at hnodup
      by_cases hp : p = .readyList
      · rw [hp, setList_self] at hmem
        exact (nodup_cons.mp hnodup).1 hmem
      · rw [setList_of_ne hp] at hmem
        exact hp (h.exclusive.apart p .readyList t hmem (by rw [ht]; exact mem_cons_self))
    · by_cases hp : p = .readyList
      · rw [hp, setList_self, hrest] at hmem
        cases hmem
      · rw [setList_of_ne hp] at hmem
        exact (h.listed p t hmem).idle hidle
  have hmem : ∀ p u, u ∈ (s.setList .readyList rest).lists p → u ≠ t ∧ u ∈ s.lists p := by
    intro p u hu
    refine ⟨fun he => hout p (he ▸ hu), ?_⟩
    by_cases hp : p = .readyList
    · rw [hp, setList_self] at hu
      rw [hp]
      exact hsub.subset hu
    · rwa [setList_of_ne hp] at hu
  have hnew : s.newborn t = false := by
    refine Bool.eq_false_iff.mpr fun hn => ?_
    rcases ht with ht | ⟨-, -, hidle⟩
    · exact h.newborn_not_mem hn .readyList (by rw [ht]; exact mem_cons_self)
    · exact (h.newborn t hn).2 hidle
  have hother : ∀ u, u ≠ t → update s.status t (some .running) u = s.status u :=
    fun u hu => update_of_ne hu ..
  have hself : update s.status t (some .running) t = some .running :=
    update_self ..
  refine ⟨⟨h.exclusive.shrink hsub, fun p u hu => ?_, fun u hu hidle => ?_, ?_, fun u hu => ?_,
    fun u hu => ?_, fun u hu => ?_⟩, fun u => ?_⟩
  · obtain ⟨hut, hu⟩ := hmem p u hu
    obtain ⟨hstatus, hidle, hn⟩ := h.listed p u hu
    exact ⟨(hother u hut).trans hstatus, hidle, hn⟩
  · change update s.status t (some .running) u = _ at hu
    have hut : u ≠ t := by
      intro he
      rw [he, hself] at hu
      cases hu
    rw [hother u hut] at hu
    have hu' := h.ready u hu hidle
    show u ∈ (s.setList .readyList rest).lists .readyList
    rw [setList_self]
    rcases ht with ht | ⟨hnil, -, -⟩
    · rw [ht] at hu'
      exact (mem_cons.mp hu').resolve_left hut
    · rw [hnil] at hu'
      cases hu'
  · show ((s.setList .readyList rest).lists .readyList).Pairwise _
    rw [setList_self]
    exact h.sorted.sublist hsub
  · exact h.stamped u (hmem .readyList u hu).2
  · have hut : u ≠ t := by
      intro he
      have hu' : s.newborn u = true := hu
      rw [he, hnew] at hu'
      cases hu'
    obtain ⟨hstatus, hidle⟩ := h.newborn u hu
    exact ⟨(hother u hut).trans hstatus, hidle⟩
  · show update s.status t _ u ≠ none ∧ update s.status t _ u ≠ some .dying
    by_cases hut : u = t
    · rw [hut, hself]
      simp
    · rw [hother u hut]
      exact h.idle u hu
  · show update s.status t _ u = some .running ↔ u = t
    by_cases hut : u = t
    · rw [hut, hself]
      simp
    · rw [hother u hut]
      exact iff_of_false (h.none_running u) hut

/-- **`schedule`** ends with one thread running. -/
theorem Switching.schedule (h : Switching s) (hs : s.schedule = some s') : SchedInv s' := by
  have key : ∀ t rest, (s.lists .readyList = t :: rest ∨
      s.lists .readyList = [] ∧ rest = [] ∧ s.idleThread = some t) →
      s.nextThreadToRun = (some t, rest) → SchedInv s' := by
    intro t rest ht hnext
    have hinv := h.resume ht
    simp only [Sched.schedule, hnext, Option.some.injEq] at hs
    rw [← hs]
    by_cases hrun : s.running = t
    · rw [if_neg (by simp [hrun])]
      exact hinv
    · rw [if_pos hrun]
      simp only [Sched.scheduleTail]
      split
      · exact hinv.destroy (by rename_i hd; exact hd.1)
      · exact hinv
  cases hl : s.lists .readyList with
  | nil =>
    cases hi : s.idleThread with
    | none => simp [Sched.schedule, Sched.nextThreadToRun, hl, hi] at hs
    | some t =>
      exact key t [] (.inr ⟨hl, rfl, hi⟩) (by simp [Sched.nextThreadToRun, hl, hi])
  | cons t rest => exact key t rest (.inl hl) (by simp [Sched.nextThreadToRun, hl])

end

/-! ## Calls -/

section
variable {s s' : Sched τ σ} {t : τ}

theorem SchedInv.setValue (h : SchedInv s) (value : σ → UInt32) (wakeupTime : τ → Int) :
    SchedInv { s with value, wakeupTime } :=
  ⟨{ h with listed := fun p u hu => ⟨(h.listed p u hu).status, (h.listed p u hu).idle,
    (h.listed p u hu).newborn⟩ }, h.running⟩

section
variable [DecidableEq σ]

/-- **The first thread of a list is taken from it**, to be unblocked. -/
theorem SchedInv.pop (h : SchedInv s) {p : Place σ} {rest : List τ} (hp : p ≠ .readyList)
    (hl : s.lists p = t :: rest) :
    SchedInv (s.setList p rest) ∧ (∀ q, t ∉ (s.setList p rest).lists q) ∧
      s.idleThread ≠ some t ∧ s.newborn t = false := by
  have hmem : t ∈ s.lists p := by
    rw [hl]
    exact mem_cons_self
  have hsub : rest.Sublist (s.lists p) := by
    rw [hl]
    exact sublist_cons_self t rest
  have hlisted := h.listed p t hmem
  refine ⟨⟨h.shrink hp hsub, h.running⟩, fun q hq => ?_, hlisted.idle, hlisted.newborn⟩
  by_cases hqp : q = p
  · rw [hqp, setList_self] at hq
    have hnodup := h.exclusive.nodup p
    rw [hl] at hnodup
    exact (nodup_cons.mp hnodup).1 hq
  · rw [setList_of_ne hqp] at hq
    exact hqp (h.exclusive.apart q p t hq hmem)

end

variable [DecidableEq τ]

theorem SchedInv.switch (h : SchedInv s) (hq : Queues s') (status : Status)
    (hs : s'.status = update s.status s.running (some status))
    (hstatus : status ≠ .running) : Switching s' := by
  refine ⟨hq, fun u hu => ?_⟩
  rw [hs] at hu
  by_cases hur : u = s.running
  · rw [hur, update_self] at hu
    exact hstatus (Option.some.inj hu)
  · rw [update_of_ne hur] at hu
    exact hur ((h.running u).mp hu)

theorem SchedInv.create (h : SchedInv s) {priority : Int} (ht : s.status t = none) :
    SchedInv { s.setStatus t .blocked with
      priority := update s.priority t priority
      wakeupTime := update s.wakeupTime t 0
      newborn := update s.newborn t true } := by
  have hout : ∀ p, t ∉ s.lists p := h.not_mem fun p => by simp [ht]
  have hother : ∀ u, u ≠ t → update s.status t (some .blocked) u = s.status u :=
    fun u hu => update_of_ne hu ..
  have hself : update s.status t (some .blocked) t = some .blocked :=
    update_self ..
  refine ⟨⟨h.exclusive, fun p u hu => ?_, fun u hu hidle => ?_, ?_, h.stamped, fun u hu => ?_,
    fun u hu => ?_⟩, fun u => ?_⟩
  · have hut : u ≠ t := fun he => hout p (he ▸ hu)
    obtain ⟨hstatus, hidle, hn⟩ := h.listed p u hu
    exact ⟨(hother u hut).trans hstatus, hidle, (update_of_ne hut ..).trans hn⟩
  · change update s.status t _ u = _ at hu
    have hut : u ≠ t := by
      intro he
      rw [he, hself] at hu
      cases hu
    rw [hother u hut] at hu
    exact h.ready u hu hidle
  · refine pairwise_before_congr (fun u hu => ?_) (fun _ _ => rfl) h.sorted
    exact update_of_ne (fun he : u = t => hout .readyList (he ▸ hu)) ..
  · show update s.status t _ u = _ ∧ _
    by_cases hut : u = t
    · rw [hut]
      exact ⟨hself, fun hi => (h.idle t hi).1 ht⟩
    · rw [hother u hut]
      exact h.newborn u ((update_of_ne hut ..).symm.trans hu)
  · have hut : u ≠ t := fun he => (h.idle u hu).1 (he ▸ ht)
    show update s.status t _ u ≠ _ ∧ update s.status t _ u ≠ _
    rw [hother u hut]
    exact h.idle u hu
  · show update s.status t _ u = _ ↔ _
    by_cases hut : u = t
    · rw [hut, hself]
      refine iff_of_false (by simp) fun he => ?_
      have hrun := (h.running t).mpr he
      rw [ht] at hrun
      cases hrun
    · rw [hother u hut]
      exact h.running u

variable [DecidableEq σ]

/-- **`thread_unblock`** of a thread in no list. -/
theorem SchedInv.threadUnblock (h : SchedInv s) (ht : ∀ p, t ∉ s.lists p)
    (hidle : s.idleThread ≠ some t) (hnew : s.newborn t = false)
    (hs : s.threadUnblock t = some s') :
    SchedInv s' ∧ ∀ p, p ≠ .readyList → s'.lists p = s.lists p := by
  unfold Sched.threadUnblock at hs
  split at hs
  · rename_i hblocked
    cases hs
    refine ⟨⟨h.pushReady ht hidle hnew, fun u => ?_⟩, fun p hp => setList_of_ne hp⟩
    show update s.status t (some .ready) u = some .running ↔ u = s.running
    by_cases hut : u = t
    · rw [hut, update_self]
      refine iff_of_false (by simp) fun he => ?_
      rw [(h.running t).mpr he] at hblocked
      cases hblocked
    · rw [update_of_ne hut]
      exact h.running u
  · cases hs

theorem SchedInv.wakeLoop {ticks : Int} {l : List τ} (h : SchedInv s)
    (hl : s.lists .sleepList = l) (hs : Sched.wakeLoop ticks l s = some s') : SchedInv s' := by
  induction l generalizing s with
  | nil =>
    cases hs
    exact h
  | cons t rest ih =>
    simp only [Sched.wakeLoop] at hs
    split at hs
    · obtain ⟨s1, hs1, hs⟩ := Option.bind_eq_some_iff.mp hs
      obtain ⟨hpop, hout, hidle, hnew⟩ := h.pop (by simp) hl
      obtain ⟨hinv, hlists⟩ := hpop.threadUnblock hout hidle hnew hs1
      exact ih hinv ((hlists .sleepList (by simp)).trans setList_self) hs
    · cases hs
      exact h

theorem SchedInv.blockIn (h : SchedInv s) (hidle : s.idleThread ≠ some s.running) {p : Place σ}
    {l : List τ} (hp : p ≠ .readyList) (hl : l.Perm (s.running :: s.lists p))
    (hs : (s.setList p l).threadBlock = some s') : SchedInv s' := by
  have hq := h.block h.running_not_mem hidle h.running_not_newborn hp hl
  exact (h.switch hq .blocked rfl (by simp)).schedule hs

theorem SchedInv.threadYield (h : SchedInv s) (hs : s.threadYield = some s') : SchedInv s' := by
  unfold Sched.threadYield at hs
  by_cases hidle : s.idleThread = some s.running
  · rw [if_pos hidle] at hs
    have hq := h.setStatus h.running_not_mem h.running_not_newborn .ready (fun _ => hidle)
      nofun
    exact (h.switch hq .ready rfl (by simp)).schedule hs
  · rw [if_neg hidle] at hs
    have hq := h.pushReady h.running_not_mem hidle h.running_not_newborn
    exact (h.switch hq .ready rfl (by simp)).schedule hs

end

/-! ## Runs -/

/-- The scheduler's lists in order. -/
structure InOrder (s : Sched τ σ) : Prop where
  one_running : ∀ t, s.status t = some .running ↔ t = s.running
  ready : ∀ t, t ∈ s.lists .readyList ↔ s.status t = some .ready ∧ s.idleThread ≠ some t
  once : (s.lists .readyList).Nodup
  /-- By priority, and in the order of insertion among equal priorities. -/
  sorted : (s.lists .readyList).Pairwise (Before s.priority s.stamp)
  /-- The thread that is picked comes before all the others that are ready. -/
  next : ∀ t rest, s.lists .readyList ≠ [] → s.nextThreadToRun = (some t, rest) → ∀ u,
    s.status u = some .ready → s.idleThread ≠ some u → u ≠ t → Before s.priority s.stamp t u
  /-- The `elem` of a blocked thread is in at most one list. -/
  blocked : ∀ t, s.status t = some .blocked → t ∉ s.lists .readyList ∧
    (∀ p q, t ∈ s.lists p → t ∈ s.lists q → p = q) ∧ ∀ p, (s.lists p).Nodup

section
variable {s s' : Sched τ σ} {a : SchedAct τ σ}

theorem SchedInv.inOrder (h : SchedInv s) : InOrder s := by
  have hready : ∀ t, t ∈ s.lists .readyList ↔ s.status t = some .ready ∧ s.idleThread ≠ some t :=
    fun t => ⟨fun ht => ⟨(h.listed _ t ht).status, (h.listed _ t ht).idle⟩,
      fun ht => h.ready t ht.1 ht.2⟩
  refine ⟨h.running, hready, h.exclusive.nodup _, h.sorted, fun t rest hne hnext u hu hidle hut => ?_,
    fun t ht => ⟨fun hmem => ?_, fun p q => h.exclusive.apart p q t, h.exclusive.nodup⟩⟩
  · have hmem := h.ready u hu hidle
    have hsorted := h.sorted
    cases hl : s.lists .readyList with
    | nil => exact absurd hl hne
    | cons t' rest' =>
      simp only [Sched.nextThreadToRun, hl, Prod.mk.injEq, Option.some.injEq] at hnext
      rw [hl, hnext.1] at hmem hsorted
      exact (pairwise_cons.mp hsorted).1 u ((mem_cons.mp hmem).resolve_left hut)
  · have hstatus := (h.listed _ t hmem).status
    rw [ht] at hstatus
    cases hstatus

variable [DecidableEq τ]

theorem init_schedInv (t : τ) (value : σ → UInt32) : SchedInv (Sched.init t value) := by
  have hstatus : ∀ {u st}, (Sched.init t value : Sched τ σ).status u = some st →
      u = t ∧ st = .running := by
    intro u st hu
    change update (fun _ => none) t (some Status.running) u = _ at hu
    by_cases hut : u = t
    · rw [hut, update_self] at hu
      exact ⟨hut, (Option.some.inj hu).symm⟩
    · rw [update_of_ne hut] at hu
      cases hu
  refine ⟨⟨⟨fun _ => nodup_nil, nofun⟩, nofun,
    fun u hu => ?_, List.Pairwise.nil, nofun, nofun,
    nofun⟩, fun u => ⟨fun hu => (hstatus hu).1, ?_⟩⟩
  · cases (hstatus hu).2
  · rintro rfl
    show update (fun _ => none) u (some Status.running) u = _
    exact update_self ..

variable [DecidableEq σ]

theorem SchedInv.step (h : SchedInv s) (hs : s.step a = some s') : SchedInv s' := by
  cases a with
  | create t priority =>
    simp only [Sched.step] at hs
    split at hs
    · rename_i hok
      cases hs
      exact h.create hok.2.1
    · cases hs
  | start t =>
    simp only [Sched.step] at hs
    split at hs
    · rename_i hok
      have hnew := hok.2
      -- the thread is still in no list
      have h' : SchedInv { s with newborn := update s.newborn t false } := by
        have hne : ∀ {u}, update s.newborn t false u = true → s.newborn u = true := by
          intro u hu
          by_cases hut : u = t
          · rw [hut, update_self] at hu
            cases hu
          · rwa [update_of_ne hut] at hu
        refine ⟨{ h with listed := fun p u hu => ?_, newborn := fun u hu => h.newborn u (hne hu) }, h.running⟩
        obtain ⟨hstatus, hidle, hn⟩ := h.listed p u hu
        refine ⟨hstatus, hidle, Bool.eq_false_iff.mpr fun hu => ?_⟩
        rw [hne hu] at hn
        cases hn
      exact (h'.threadUnblock (h.newborn_not_mem hnew) (h.newborn t hnew).2
        (update_self ..) hs).1
    · cases hs
  | becomeIdle =>
    simp only [Sched.step] at hs
    split at hs
    · cases hs
      have hrun := (h.running s.running).mpr rfl
      refine ⟨⟨h.exclusive, fun p u hu => ?_, fun u hu hidle => ?_, h.sorted, h.stamped,
        fun u hu => ?_, fun u hu => ?_⟩, h.running⟩
      · obtain ⟨hstatus, -, hn⟩ := h.listed p u hu
        refine ⟨hstatus, fun he => ?_, hn⟩
        exact h.running_not_mem p (Option.some.inj he ▸ hu)
      · exact h.ready u hu fun he => (by simp_all)
      · refine ⟨(h.newborn u hu).1, fun he => ?_⟩
        have hu' : s.newborn u = true := hu
        rw [← Option.some.inj he, h.running_not_newborn] at hu'
        cases hu'
      · show s.status u ≠ none ∧ s.status u ≠ some .dying
        rw [← Option.some.inj hu, hrun]
        simp
    · cases hs
  | idleBlock =>
    simp only [Sched.step] at hs
    split at hs
    · have hq := h.setStatus h.running_not_mem h.running_not_newborn .blocked
        (fun he => by cases he) (fun he => by cases he)
      exact (h.switch hq .blocked rfl (by simp)).schedule hs
    · cases hs
  | down x =>
    simp only [Sched.step] at hs
    split at hs
    · rename_i hidle
      by_cases hv : s.value x = 0
      · rw [show semaTest (s.sema x) s.running =
          (false, ⟨s.value x, s.lists (.waiters x) ++ [s.running]⟩) from if_pos hv] at hs
        have h' := h.setValue (update s.value x (s.value x)) s.wakeupTime
        exact h'.blockIn hidle (p := .waiters x) (by simp) (perm_append_singleton _ _) hs
      · rw [show semaTest (s.sema x) s.running =
          (true, ⟨s.value x - 1, s.lists (.waiters x)⟩) from if_neg hv] at hs
        cases hs
        have hsub := h.shrink (p := .waiters x) (by simp) (List.Sublist.refl _)
        exact (SchedInv.mk hsub h.running).setValue _ s.wakeupTime
    · cases hs
  | up x =>
    have hvalue := h.setValue (update s.value x (s.value x + 1)) s.wakeupTime
    cases hw : s.lists (.waiters x) with
    | nil =>
      simp only [Sched.step, semaUp, Sched.sema, hw] at hs
      cases hs
      exact ⟨hvalue.shrink (p := .waiters x) (by simp) (nil_sublist _), h.running⟩
    | cons t rest =>
      simp only [Sched.step, semaUp, Sched.sema, hw] at hs
      obtain ⟨hpop, hout, hidle, hnew⟩ := hvalue.pop (p := .waiters x) (by simp) hw
      exact (hpop.threadUnblock hout hidle hnew hs).1
  | setWakeupTime time =>
    cases hs
    exact h.setValue s.value _
  | sleep =>
    simp only [Sched.step] at hs
    split at hs
    · exact h.blockIn ‹_› (by simp) (perm_orderedInsert _ _ _) hs
    · cases hs
  | wakeup ticks => exact h.wakeLoop rfl hs
  | yield => exact h.threadYield hs
  | exit =>
    simp only [Sched.step] at hs
    split at hs
    · rename_i hidle
      have hq := h.setStatus h.running_not_mem h.running_not_newborn .dying
        (fun he => by cases he) (fun _ => hidle)
      exact (h.switch hq .dying rfl (by simp)).schedule hs
    · cases hs
  | setPriority priority =>
    cases hs
    refine ⟨{ h with listed := fun p u hu => ?_, sorted := ?_ }, h.running⟩
    · obtain ⟨hstatus, hidle, hn⟩ := h.listed p u hu
      exact ⟨hstatus, hidle, hn⟩
    · -- the running thread is not in the list
      refine pairwise_before_congr (fun u hu => ?_) (fun _ _ => rfl) h.sorted
      exact update_of_ne (fun he : u = s.running => h.running_not_mem _ (he ▸ hu)) ..

/-- **`ready_list` is in order** in every state that the threads can reach. -/
theorem ready_list_in_order {t : τ} {value : σ → UInt32} {as : List (SchedAct τ σ)}
    (hrun : Run Sched.step (fun _ _ => True) (Sched.init t value) as s) : InOrder s := by
  have hinv : SchedInv s :=
    hrun.invariant (fun _ _ _ hs _ hstep => hs.step hstep) (init_schedInv t value)
  exact hinv.inOrder

end

/-- Thread 1 becomes the idle thread, and thread 0 yields to thread 2. -/
theorem ready_list_in_order_three_threads :
    ∃ s : Sched (Fin 3) (Fin 1), Run Sched.step (fun _ _ => True) (Sched.init 0 fun _ => 0)
        [.create 1 0, .start 1, .down 0, .becomeIdle, .up 0, .idleBlock, .create 2 31, .start 2,
          .yield] s ∧
      (s.running = 2 ∧ s.lists .readyList = [0] ∧ s.idleThread = some 1) ∧ InOrder s := by
  exact Run.exists_guarded
    (fun s => s.running = 2 ∧ s.lists .readyList = [0] ∧ s.idleThread = some 1)
    (by decide +kernel) fun s hrun hs => ⟨hs, ready_list_in_order hrun⟩

end Pintos.Threads
