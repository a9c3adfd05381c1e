import Mathlib.Algebra.Ring.Int.Defs
import Mathlib.Data.Fintype.Basic
import Pintos.Threads.Scheduler

/-!
# The alarm clock (`devices/timer.c`, `threads/thread.c`)

`timer_sleep` runs with interrupts on until `thread_sleep` disables them: each read and
each write of the shared `wakeup_call_time` is a step of its own, and between two of them
the timer interrupt may come and another thread may be switched to. `thread_sleep` and the
handler itself are one step each.

`wakeup_call_time` caches the earliest time at which a thread in `sleep_list` is to be
woken. It is lowered by `update_wakeup_call_time` before the thread is in the list, and
never raised on purpose; but the assignment of a thread that was switched away from after
its comparison can raise it again.
-/

namespace Pintos.Threads

open Lib Function List

variable {τ σ : Type}

/-! ## The machine -/

inductive SleepPc where
  | out
  /-- before `thread_set_wakeup_time` -/
  | started (time : Int)
  /-- before the comparison in `update_wakeup_call_time` -/
  | marked (time : Int)
  /-- between the comparison and the assignment -/
  | earlier (time : Int)
  /-- before `thread_sleep` disables interrupts -/
  | updated
deriving DecidableEq

def INT64_MAX : Int := 2 ^ 63 - 1

structure Alarm (τ σ : Type) where
  sched : Sched τ σ
  ticks : Int
  wakeupCallTime : Int
  pc : τ → SleepPc

inductive AlarmAct (τ σ : Type) where
  /-- `timer_sleep`: `start = timer_ticks ()` -/
  | timerSleep (ticks : Int)
  /-- `thread_set_wakeup_time` -/
  | setWakeupTime
  /-- `update_wakeup_call_time`: the comparison -/
  | compare
  /-- `update_wakeup_call_time`: the assignment -/
  | assign
  /-- `thread_sleep` -/
  | sleep
  | timerInterrupt
  /-- a step that has nothing to do with the clock -/
  | other (a : SchedAct τ σ)

/-- The calls that are made for the clock only. -/
def SchedAct.forClock : SchedAct τ σ → Bool
  | .setWakeupTime _ => true
  | .sleep => true
  | .wakeup _ => true
  | _ => false

/-- The calls that an interrupt handler makes, whatever the running thread is doing. -/
def SchedAct.byHandler : SchedAct τ σ → Bool
  | .yield => true
  | .up _ => true
  | _ => false

namespace Alarm

/-- `update_wakeup_call_time` in the handler, where nothing can come in between. -/
def updateWakeupCallTime (s : Alarm τ σ) (time : Int) : Alarm τ σ :=
  if time < s.wakeupCallTime then { s with wakeupCallTime := time } else s

def init [DecidableEq τ] (t : τ) (value : σ → UInt32) : Alarm τ σ where
  sched := Sched.init t value
  ticks := 0
  wakeupCallTime := INT64_MAX
  pc := fun _ => .out

def goto [DecidableEq τ] (s : Alarm τ σ) (pc : SleepPc) : Alarm τ σ :=
  { s with pc := update s.pc s.sched.running pc }

/-- The threads whose alarm is set: they sleep, or have updated `wakeup_call_time` and are
about to sleep. -/
def Counts (s : Alarm τ σ) (t : τ) : Prop := t ∈ s.sched.lists .sleepList ∨ s.pc t = .updated

def assigned (s : Alarm τ σ) : AlarmAct τ σ → Option Int
  | .assign =>
    match s.pc s.sched.running with
    | .earlier time => some time
    | _ => none
  | _ => none

/-- The assignment is in time: no alarm that is set is earlier. -/
def InTime (s : Alarm τ σ) (a : AlarmAct τ σ) : Prop :=
  ∀ t, s.Counts t → ∀ time ∈ s.assigned a, time ≤ s.sched.wakeupTime t

section
variable [DecidableEq τ] [DecidableEq σ]

def threadWakeup (s : Alarm τ σ) (ticks : Int) : Option (Alarm τ σ) :=
  (s.sched.threadWakeup ticks).map fun sched =>
    match sched.lists .sleepList with
    -- the thread at which the loop stops
    | t :: _ => { s with sched }.updateWakeupCallTime (sched.wakeupTime t)
    | [] => { s with sched }.updateWakeupCallTime INT64_MAX

/-- What `thread_tick` makes of it, a switch, is a step of its own. -/
def timerInterrupt (s : Alarm τ σ) : Option (Alarm τ σ) :=
  if s.wakeupCallTime ≤ s.ticks + 1 then
    { s with ticks := s.ticks + 1 }.threadWakeup (s.ticks + 1)
  else some { s with ticks := s.ticks + 1 }

def step (s : Alarm τ σ) : AlarmAct τ σ → Option (Alarm τ σ)
  | .timerSleep ticks =>
    if s.pc s.sched.running = .out then some (s.goto (.started (ticks + s.ticks))) else none
  | .setWakeupTime =>
    match s.pc s.sched.running with
    | .started time => (s.sched.step (.setWakeupTime time)).map fun sched =>
        { s.goto (.marked time) with sched }
    | _ => none
  | .compare =>
    match s.pc s.sched.running with
    | .marked time => some (s.goto (if time < s.wakeupCallTime then .earlier time else .updated))
    | _ => none
  | .assign =>
    match s.pc s.sched.running with
    | .earlier time => some { s.goto .updated with wakeupCallTime := time }
    | _ => none
  | .sleep =>
    if s.pc s.sched.running = .updated then
      (s.sched.step .sleep).map fun sched => { s.goto .out with sched }
    else none
  | .timerInterrupt => s.timerInterrupt
  | .other a =>
    if a.forClock = false ∧ (s.pc s.sched.running = .out ∨ a.byHandler = true) then
      (s.sched.step a).map fun sched => { s with sched }
    else none

end

instance [DecidableEq τ] (s : Alarm τ σ) (t : τ) : Decidable (s.Counts t) :=
  inferInstanceAs (Decidable (_ ∨ _))

instance [DecidableEq τ] [Fintype τ] (s : Alarm τ σ) (a : AlarmAct τ σ) : Decidable (s.InTime a) :=
  inferInstanceAs (Decidable (∀ _, _ → ∀ _ ∈ _, _))

end Alarm

/-! ## What the scheduler leaves alone -/

def Sched.Lives (s : Sched τ σ) (t : τ) : Prop := s.status t ≠ none ∧ s.status t ≠ some .dying

/-- A step that touches no alarm and ends no thread. -/
structure Quiet (s s' : Sched τ σ) : Prop where
  sleepers : s'.lists .sleepList = s.lists .sleepList
  wakeupTime : s'.wakeupTime = s.wakeupTime
  lives : ∀ t, s.Lives t → s'.Lives t

section
variable {s s' s'' : Sched τ σ} {t : τ}

theorem Quiet.trans (h : Quiet s s') (h' : Quiet s' s'') : Quiet s s'' :=
  ⟨h'.sleepers.trans h.sleepers, h'.wakeupTime.trans h.wakeupTime, fun t ht => h'.lives t (h.lives t ht)⟩

variable [DecidableEq τ]

theorem quiet_setStatus {status : Status} (hstatus : status ≠ .dying) : Quiet s (s.setStatus t status) := by
  refine ⟨rfl, rfl, fun u hu => ?_⟩
  show update s.status t _ u ≠ none ∧ update s.status t _ u ≠ some .dying
  by_cases hut : u = t
  · rw [hut, update_self]
    exact ⟨nofun, fun h => hstatus (Option.some.inj h)⟩
  · rw [update_of_ne hut]
    exact hu

theorem quiet_scheduleTail {prev : Option τ} : Quiet s (s.scheduleTail prev) := by
  have hrun : Quiet s (s.setStatus s.running .running) := quiet_setStatus (by decide)
  unfold Sched.scheduleTail
  cases prev with
  | none => exact hrun
  | some prev =>
    dsimp only
    split
    · -- only a dying thread is destroyed
      rename_i hdying
      refine hrun.trans ⟨rfl, rfl, fun u hu => ?_⟩
      have hne : u ≠ prev := fun he => hu.2 (he ▸ hdying.1)
      have hkeep : update (s.setStatus s.running .running).status prev none u =
          (s.setStatus s.running .running).status u := update_of_ne hne ..
      exact ⟨fun h => hu.1 (hkeep.symm.trans h), fun h => hu.2 (hkeep.symm.trans h)⟩
    · exact hrun

variable [DecidableEq σ]

theorem quiet_pushReady : Quiet s (s.pushReady t) :=
  ⟨by simp [Sched.pushReady, Sched.setList], rfl, fun _ ht => ht⟩

omit [DecidableEq τ] in
theorem quiet_setSema {x : σ} {sema : Semaphore τ} : Quiet s (s.setSema x sema) :=
  ⟨by simp [Sched.setSema, Sched.setList], rfl, fun _ ht => ht⟩

theorem quiet_schedule (hs : s.schedule = some s') : Quiet s s' := by
  unfold Sched.schedule at hs
  split at hs
  · cases hs
  · cases hs
    rename_i next rest _
    have hlist : Quiet s { s.setList .readyList rest with running := next } :=
      ⟨by simp [Sched.setList], rfl, fun _ ht => ht⟩
    exact hlist.trans quiet_scheduleTail

theorem quiet_threadBlock (hs : s.threadBlock = some s') : Quiet s s' :=
  (quiet_setStatus (by decide)).trans (quiet_schedule hs)

theorem quiet_threadUnblock (hs : s.threadUnblock t = some s') : Quiet s s' := by
  unfold Sched.threadUnblock at hs
  split at hs
  · cases hs
    exact quiet_pushReady.trans (quiet_setStatus (by decide))
  · cases hs

theorem quiet_threadYield (hs : s.threadYield = some s') : Quiet s s' := by
  unfold Sched.threadYield at hs
  refine Quiet.trans ?_ ((quiet_setStatus (by decide)).trans (quiet_schedule hs))
  split
  · exact ⟨rfl, rfl, fun _ ht => ht⟩
  · exact quiet_pushReady

/-- A step that is not made for the clock leaves the alarms alone; it may end the running
thread, if no handler makes it. -/
theorem step_quiet {a : SchedAct τ σ} (ha : a.forClock = false) (hs : s.step a = some s') :
    s'.lists .sleepList = s.lists .sleepList ∧ (∀ t, s.Lives t → s'.wakeupTime t = s.wakeupTime t) ∧
      ∀ t, s.Lives t → (t = s.running → a.byHandler = true) → s'.Lives t := by
  have hquiet : ∀ {s1}, Quiet s s1 → s1.lists .sleepList = s.lists .sleepList ∧
      (∀ t, s.Lives t → s1.wakeupTime t = s.wakeupTime t) ∧
      ∀ t, s.Lives t → (t = s.running → a.byHandler = true) → s1.Lives t := fun q =>
    ⟨q.sleepers, fun t _ => congrFun q.wakeupTime t, fun t ht _ => q.lives t ht⟩
  cases a with
  | create t priority =>
    simp only [Sched.step] at hs
    split at hs
    · rename_i hguard
      cases hs
      have hne : ∀ u, s.Lives u → u ≠ t := fun u hu he => hu.1 (he ▸ hguard.2.1)
      obtain ⟨-, -, hlives⟩ : Quiet s (s.setStatus t .blocked) := quiet_setStatus (by decide)
      exact ⟨rfl, fun u hu => update_of_ne (hne u hu) .., fun u hu _ => hlives u hu⟩
    · cases hs
  | start t =>
    simp only [Sched.step] at hs
    split at hs
    · obtain ⟨hsleep, hwake, hlives⟩ := quiet_threadUnblock hs
      exact hquiet ⟨hsleep, hwake, hlives⟩
    · cases hs
  | becomeIdle =>
    simp only [Sched.step] at hs
    split at hs
    · cases hs
      exact hquiet ⟨rfl, rfl, fun _ ht => ht⟩
    · cases hs
  | idleBlock =>
    simp only [Sched.step] at hs
    split at hs
    · exact hquiet (quiet_threadBlock hs)
    · cases hs
  | down x =>
    simp only [Sched.step] at hs
    split at hs
    · split at hs
      · exact hquiet (quiet_setSema.trans (quiet_threadBlock hs))
      · cases hs
        exact hquiet quiet_setSema
    · cases hs
  | up x =>
    simp only [Sched.step] at hs
    split at hs
    · cases hs
      exact hquiet quiet_setSema
    · exact hquiet (quiet_setSema.trans (quiet_threadUnblock hs))
  | yield => exact hquiet (quiet_threadYield hs)
  | exit =>
    simp only [Sched.step] at hs
    split at hs
    · -- the running thread is the one that ends
      obtain ⟨hsleep, hwake, hlives⟩ := quiet_schedule hs
      refine ⟨hsleep, fun t _ => congrFun hwake t, fun t ht hrun => hlives t ?_⟩
      have hne : t ≠ s.running := fun he => Bool.false_ne_true (hrun he)
      have hkeep : (s.setStatus s.running .dying).status t = s.status t := update_of_ne hne ..
      exact ⟨fun h => ht.1 (hkeep.symm.trans h), fun h => ht.2 (hkeep.symm.trans h)⟩
    · cases hs
  | setPriority priority =>
    cases hs
    exact hquiet ⟨rfl, rfl, fun _ ht => ht⟩
  | _ => cases ha

/-- **The loop of `thread_wakeup`** on a sorted list: the threads are unblocked one after the
other, until the rest is not due. -/
theorem wakeLoop_rule {ticks : Int} {P : List τ → Sched τ σ → Sched τ σ → Prop}
    (hlate : ∀ {s l}, s.lists .sleepList = l → (∀ t ∈ l, ticks < s.wakeupTime t) → P l s s)
    (hwakes : ∀ {s s1 s' t rest}, s.wakeupTime t ≤ ticks → t ∉ rest →
      (s.setList .sleepList rest).threadUnblock t = some s1 → P rest s1 s' → P (t :: rest) s s')
    {l : List τ} (h : SchedInv s) (hl : s.lists .sleepList = l)
    (hsorted : l.Pairwise fun a b => s.wakeupTime a ≤ s.wakeupTime b) :
    ∃ s', Sched.wakeLoop ticks l s = some s' ∧ P l s s' := by
  induction l generalizing s with
  | nil => exact ⟨s, rfl, hlate hl nofun⟩
  | cons t rest ih =>
    obtain ⟨ht, hrest⟩ := pairwise_cons.mp hsorted
    have hnodup := nodup_cons.mp (hl ▸ h.exclusive.nodup .sleepList)
    by_cases hdue : s.wakeupTime t ≤ ticks
    · -- the first thread is due, and the assertion of `thread_unblock` holds
      have hblocked : (s.setList .sleepList rest).status t = some .blocked :=
        (h.listed .sleepList t (hl ▸ mem_cons_self)).status
      obtain ⟨hpop, hout, hidle, hnew⟩ := h.pop (p := .sleepList) (by simp) hl
      obtain ⟨s1, hs1⟩ : ∃ s1, (s.setList .sleepList rest).threadUnblock t = some s1 :=
        ⟨_, if_pos hblocked⟩
      obtain ⟨hinv, hlists⟩ := hpop.threadUnblock hout hidle hnew hs1
      have hwake : s1.wakeupTime = s.wakeupTime := (quiet_threadUnblock hs1).wakeupTime
      obtain ⟨s', hs', hwoken⟩ :=
        ih hinv ((hlists .sleepList (by simp)).trans setList_self) (by rw [hwake]; exact hrest)
      refine ⟨s', ?_, hwakes hdue hnodup.1 hs1 hwoken⟩
      rw [Sched.wakeLoop, if_pos hdue, hs1, Option.bind_some, hs']
    · -- the list is sorted, so nothing behind it is due
      refine ⟨s, if_neg hdue, hlate hl (forall_mem_cons.mpr ⟨?_, fun u hu => ?_⟩)⟩
      · exact Int.not_le.mp hdue
      · exact lt_of_lt_of_le (Int.not_le.mp hdue) (ht u hu)

theorem wakeLoop_due (ticks : Int) {l : List τ} (h : SchedInv s) (hl : s.lists .sleepList = l)
    (hsorted : l.Pairwise fun a b => s.wakeupTime a ≤ s.wakeupTime b) :
    ∃ s', Sched.wakeLoop ticks l s = some s' ∧ s'.wakeupTime = s.wakeupTime ∧
      (∀ t, s.Lives t → s'.Lives t) ∧ s'.lists .sleepList <:+ l ∧
      ∀ t ∈ s'.lists .sleepList, ticks < s.wakeupTime t := by
  refine wakeLoop_rule (P := fun l s s' => s'.wakeupTime = s.wakeupTime ∧
    (∀ t, s.Lives t → s'.Lives t) ∧ s'.lists .sleepList <:+ l ∧
      ∀ t ∈ s'.lists .sleepList, ticks < s.wakeupTime t) ?_ ?_ h hl hsorted
  · rintro s l rfl hlate
    exact ⟨rfl, fun _ ht => ht, suffix_rfl, hlate⟩
  · rintro s s1 s' t rest - - hs1 ⟨hwake', hlives, hsuffix, hlate⟩
    have hquiet := quiet_threadUnblock hs1
    have hwake : s1.wakeupTime = s.wakeupTime := hquiet.wakeupTime
    exact ⟨hwake'.trans hwake, fun u hu => hlives u (hquiet.lives u hu),
      hsuffix.trans (suffix_cons t rest), fun u hu => hwake ▸ hlate u hu⟩

end

/-! ## The alarms -/

/-- What holds between two steps, if every assignment is in time. -/
structure Alarms (s : Alarm τ σ) : Prop where
  inv : SchedInv s.sched
  lives : ∀ t, s.pc t ≠ .out → s.sched.Lives t
  sorted : (s.sched.lists .sleepList).Pairwise fun a b => s.sched.wakeupTime a ≤ s.sched.wakeupTime b
  marked : ∀ t time, s.pc t = .marked time ∨ s.pc t = .earlier time → s.sched.wakeupTime t = time
  early : ∀ t, s.Counts t → s.wakeupCallTime ≤ s.sched.wakeupTime t

section
variable {s s' : Alarm τ σ}

theorem SchedInv.running_lives {s : Sched τ σ} (h : SchedInv s) : s.Lives s.running := by
  unfold Sched.Lives
  rw [(h.running s.running).mpr rfl]
  exact ⟨nofun, nofun⟩

variable {t : τ} {pc : SleepPc}

theorem SchedInv.sleeper_lives {s : Sched τ σ} (h : SchedInv s) (ht : t ∈ s.lists .sleepList) :
    s.Lives t := by
  unfold Sched.Lives
  rw [(h.listed .sleepList t ht).status]
  exact ⟨nofun, nofun⟩

theorem Alarms.counts_lives (h : Alarms s) (ht : s.Counts t) : s.sched.Lives t := by
  rcases ht with hmem | hpc
  · exact h.inv.sleeper_lives hmem
  · exact h.lives t (by rw [hpc]; exact nofun)

/-- A step of the scheduler that is not made for the clock. -/
theorem Alarms.reschedule (h : Alarms s) {sched : Sched τ σ} (hinv : SchedInv sched)
    (hsleep : sched.lists .sleepList <:+ s.sched.lists .sleepList)
    (hwake : ∀ t, s.sched.Lives t → sched.wakeupTime t = s.sched.wakeupTime t)
    (hlives : ∀ t, s.pc t ≠ .out → sched.Lives t) : Alarms { s with sched } := by
  have hin : ∀ t ∈ sched.lists .sleepList, sched.wakeupTime t = s.sched.wakeupTime t := fun t ht =>
    hwake t (h.inv.sleeper_lives (hsleep.subset ht))
  refine ⟨hinv, hlives, ?_, fun t time ht => ?_, fun t ht => ?_⟩
  · refine (h.sorted.sublist hsleep.sublist).imp_of_mem fun {a b} ha hb hab => ?_
    rw [hin a ha, hin b hb]
    exact hab
  · have hout : s.pc t ≠ .out := by
      intro hpc
      replace ht : s.pc t = .marked time ∨ s.pc t = .earlier time := ht
      rw [hpc] at ht
      exact ht.elim nofun nofun
    exact (hwake t (h.lives t hout)).trans (h.marked t time ht)
  · have hcounts : s.Counts t := ht.imp (fun hmem => hsleep.subset hmem) id
    exact (h.early t hcounts).trans (hwake t (h.counts_lives hcounts)).ge

theorem Alarms.recall (h : Alarms s) {time : Int} (hle : ∀ t, s.Counts t → time ≤ s.sched.wakeupTime t) :
    Alarms { s with wakeupCallTime := time } :=
  { h with early := hle }

theorem Alarms.updateWakeupCallTime (h : Alarms s) (time : Int) : Alarms (s.updateWakeupCallTime time) := by
  unfold Alarm.updateWakeupCallTime
  split
  · rename_i hlt
    exact h.recall fun t ht => hlt.le.trans (h.early t ht)
  · exact h

theorem updateWakeupCallTime_sched (time : Int) :
    (s.updateWakeupCallTime time).sched = s.sched ∧ (s.updateWakeupCallTime time).ticks = s.ticks := by
  unfold Alarm.updateWakeupCallTime
  split <;> exact ⟨rfl, rfl⟩

variable [DecidableEq τ]

theorem init_alarms (t : τ) (value : σ → UInt32) : Alarms (Alarm.init t value) where
  inv := init_schedInv t value
  lives _ ht := absurd rfl ht
  sorted := List.Pairwise.nil
  marked _ _ ht := ht.elim nofun nofun
  early _ ht := ht.elim (fun hmem => absurd hmem not_mem_nil) nofun

theorem goto_self : (s.goto pc).pc s.sched.running = pc := update_self ..

theorem goto_of_ne (ht : t ≠ s.sched.running) : (s.goto pc).pc t = s.pc t :=
  update_of_ne ht ..

/-- **The running thread goes on** in `timer_sleep`. -/
theorem Alarms.goto (h : Alarms s)
    (hmarked : ∀ time, pc = .marked time ∨ pc = .earlier time → s.sched.wakeupTime s.sched.running = time)
    (hearly : pc = .updated → s.wakeupCallTime ≤ s.sched.wakeupTime s.sched.running) :
    Alarms (s.goto pc) := by
  refine ⟨h.inv, fun t ht => ?_, h.sorted, fun t time ht => ?_, fun t ht => ?_⟩ <;>
    by_cases hrun : t = s.sched.running
  · rw [hrun]
    exact h.inv.running_lives
  · rw [goto_of_ne hrun] at ht
    exact h.lives t ht
  · rw [hrun, goto_self] at ht
    rw [hrun]
    exact hmarked time ht
  · rw [goto_of_ne hrun] at ht
    exact h.marked t time ht
  · rcases ht with hmem | hpc
    · exact h.early t (.inl hmem)
    · rw [hrun, goto_self] at hpc
      rw [hrun]
      exact hearly hpc
  · unfold Alarm.Counts at ht
    rw [goto_of_ne hrun] at ht
    exact h.early t ht

/-- **`thread_set_wakeup_time`** changes no alarm that is set. -/
theorem Alarms.setWakeupTime (h : Alarms s) {time : Int} (hpc : s.pc s.sched.running = .started time) :
    Alarms { s.goto (.marked time) with
      sched := { s.sched with wakeupTime := update s.sched.wakeupTime s.sched.running time } } := by
  have hother : ∀ t, t ≠ s.sched.running →
      update s.sched.wakeupTime s.sched.running time t = s.sched.wakeupTime t := fun t ht =>
    update_of_ne ht ..
  have hsleep : ∀ t ∈ s.sched.lists .sleepList, t ≠ s.sched.running := fun t ht he =>
    h.inv.running_not_mem .sleepList (he ▸ ht)
  refine ⟨h.inv.setValue s.sched.value _, fun t ht => ?_, ?_, fun t time' ht => ?_, fun t ht => ?_⟩
  · by_cases hrun : t = s.sched.running
    · exact h.lives t (by rw [hrun, hpc]; exact nofun)
    · exact h.lives t fun hout => ht ((goto_of_ne hrun).trans hout)
  · refine h.sorted.imp_of_mem fun {a b} ha hb hab => ?_
    show update s.sched.wakeupTime s.sched.running time a ≤
      update s.sched.wakeupTime s.sched.running time b
    rw [hother a (hsleep a ha), hother b (hsleep b hb)]
    exact hab
  · show update s.sched.wakeupTime s.sched.running time t = time'
    replace ht : (s.goto (.marked time)).pc t = .marked time' ∨ (s.goto (.marked time)).pc t = .earlier time' := ht
    by_cases hrun : t = s.sched.running
    · rw [hrun, goto_self] at ht
      rw [hrun, update_self]
      exact SleepPc.marked.inj (ht.resolve_right nofun)
    · rw [goto_of_ne hrun] at ht
      rw [hother t hrun]
      exact h.marked t time' ht
  · have hrun : t ≠ s.sched.running := by
      rcases ht with hmem | hupdated
      · exact hsleep t hmem
      · intro he
        replace hupdated : (s.goto (.marked time)).pc t = .updated := hupdated
        rw [he, goto_self] at hupdated
        cases hupdated
    show s.wakeupCallTime ≤ update s.sched.wakeupTime s.sched.running time t
    rw [hother t hrun]
    exact h.early t (ht.imp id fun hupdated => (goto_of_ne hrun).symm.trans hupdated)

variable [DecidableEq σ]

/-- **`thread_wakeup`** wakes every thread that is due. -/
theorem Alarms.threadWakeup (h : Alarms s) (ticks : Int) :
    ∃ s', s.threadWakeup ticks = some s' ∧ Alarms s' ∧ s'.ticks = s.ticks ∧
      ∀ t ∈ s'.sched.lists .sleepList, ticks < s'.sched.wakeupTime t := by
  obtain ⟨sched, hloop, hwake, hlives, hsuffix, hdue⟩ := wakeLoop_due ticks h.inv rfl h.sorted
  have hcalm : Alarms { s with sched } :=
    h.reschedule (h.inv.wakeLoop rfl hloop) hsuffix (fun t _ => congrFun hwake t)
      fun t ht => hlives t (h.lives t ht)
  have hlate : ∀ t ∈ sched.lists .sleepList, ticks < sched.wakeupTime t := fun t ht =>
    hwake ▸ hdue t ht
  -- only `wakeup_call_time` is still to be updated
  have hupdate : ∀ time, Alarms ({ s with sched }.updateWakeupCallTime time) ∧
      ({ s with sched }.updateWakeupCallTime time).ticks = s.ticks ∧
      ∀ t ∈ ({ s with sched }.updateWakeupCallTime time).sched.lists .sleepList,
        ticks < ({ s with sched }.updateWakeupCallTime time).sched.wakeupTime t := by
    intro time
    obtain ⟨hsched, hticks⟩ := updateWakeupCallTime_sched (s := { s with sched }) time
    rw [hsched, hticks]
    exact ⟨hcalm.updateWakeupCallTime time, rfl, hlate⟩
  rw [Alarm.threadWakeup, Sched.threadWakeup, hloop, Option.map_some]
  cases sched.lists .sleepList with
  | nil => exact ⟨_, rfl, hupdate _⟩
  | cons t rest => exact ⟨_, rfl, hupdate _⟩

/-- **The timer interrupt** leaves no thread in `sleep_list` that is due. -/
theorem Alarms.timerInterrupt (h : Alarms s) :
    ∃ s', s.timerInterrupt = some s' ∧ Alarms s' ∧ s'.ticks = s.ticks + 1 ∧
      ∀ t ∈ s'.sched.lists .sleepList, s'.ticks < s'.sched.wakeupTime t := by
  have htick : Alarms { s with ticks := s.ticks + 1 } := { h with }
  unfold Alarm.timerInterrupt
  by_cases hcall : s.wakeupCallTime ≤ s.ticks + 1
  · rw [if_pos hcall]
    obtain ⟨s', hwake, halarms, hticks, hdue⟩ := htick.threadWakeup (s.ticks + 1)
    exact ⟨s', hwake, halarms, hticks, fun t ht => hticks ▸ hdue t ht⟩
  · -- the call time is not after any alarm, so none is due
    rw [if_neg hcall]
    exact ⟨_, rfl, htick, rfl, fun t ht => lt_of_lt_of_le (Int.not_le.mp hcall) (h.early t (.inl ht))⟩

/-- **`thread_sleep`** puts the thread, whose alarm is set, into `sleep_list`. -/
theorem Alarms.sleep (h : Alarms s) (hpc : s.pc s.sched.running = .updated) {sched : Sched τ σ}
    (hs : s.sched.step .sleep = some sched) : Alarms { s.goto .out with sched } := by
  have hinv := h.inv.step hs
  simp only [Sched.step] at hs
  split at hs
  · have hquiet := quiet_threadBlock hs
    have hlist : sched.lists .sleepList = (s.sched.lists .sleepList).orderedInsert
        (fun a b => s.sched.wakeupTime a < s.sched.wakeupTime b) s.sched.running :=
      hquiet.sleepers.trans setList_self
    have hwake : sched.wakeupTime = s.sched.wakeupTime := hquiet.wakeupTime
    have hin : ∀ {t}, (s.goto .out).pc t ≠ .out → t ≠ s.sched.running := fun ht he =>
      ht (by rw [he, goto_self])
    refine ⟨hinv, fun t ht => hquiet.lives t ?_, ?_, fun t time ht => ?_, fun t ht => ?_⟩
    · exact h.lives t fun hout => ht ((goto_of_ne (hin ht)).trans hout)
    · show (sched.lists .sleepList).Pairwise fun a b => sched.wakeupTime a ≤ sched.wakeupTime b
      rw [hlist, hwake]
      exact pairwise_le_orderedInsert h.sorted
    · have hrun : t ≠ s.sched.running := by
        refine hin fun hout => ?_
        replace ht : (s.goto .out).pc t = .marked time ∨ (s.goto .out).pc t = .earlier time := ht
        rw [hout] at ht
        rcases ht with ht | ht <;> cases ht
      show sched.wakeupTime t = time
      rw [hwake]
      exact h.marked t time (ht.imp (goto_of_ne hrun).symm.trans (goto_of_ne hrun).symm.trans)
    · -- the alarm of the thread was set before it is in the list
      show s.wakeupCallTime ≤ sched.wakeupTime t
      rw [hwake]
      refine h.early t ?_
      rcases ht with hmem | hupdated
      · replace hmem : t ∈ sched.lists .sleepList := hmem
        rw [hlist] at hmem
        rcases (mem_orderedInsert _).mp hmem with rfl | hmem
        · exact .inr hpc
        · exact .inl hmem
      · replace hupdated : (s.goto .out).pc t = .updated := hupdated
        have hne : (s.goto .out).pc t ≠ .out := by
          rw [hupdated]
          intro hout
          cases hout
        exact .inr ((goto_of_ne (hin hne)).symm.trans hupdated)
  · cases hs

/-- **Every step keeps the alarms**, if its assignment is in time. -/
theorem Alarms.step (h : Alarms s) {a : AlarmAct τ σ} (htime : s.InTime a) (hs : s.step a = some s') :
    Alarms s' := by
  cases a with
  | timerSleep ticks =>
    unfold Alarm.step at hs
    dsimp only at hs
    split at hs
    · cases hs
      exact h.goto (fun _ ht => ht.elim nofun nofun) nofun
    · cases hs
  | setWakeupTime =>
    unfold Alarm.step at hs
    dsimp only at hs
    split at hs
    · cases hs
      exact h.setWakeupTime ‹_›
    · cases hs
  | compare =>
    unfold Alarm.step at hs
    dsimp only at hs
    split at hs
    · rename_i time hpc
      cases hs
      have hmarked := h.marked _ time (.inl hpc)
      split
      · exact h.goto (fun _ ht => hmarked.trans (SleepPc.earlier.inj (ht.resolve_left nofun))) nofun
      · exact h.goto (fun _ ht => ht.elim nofun nofun) fun _ => by omega
    · cases hs
  | assign =>
    unfold Alarm.step at hs
    dsimp only at hs
    split at hs
    · rename_i time hpc
      cases hs
      have hassigned : s.assigned .assign = some time := by simp only [Alarm.assigned, hpc]
      have hrecall := h.recall fun t ht => htime t ht time hassigned
      exact hrecall.goto (fun _ ht => ht.elim nofun nofun) fun _ =>
        (h.marked _ time (.inr hpc)).ge
    · cases hs
  | sleep =>
    unfold Alarm.step at hs
    dsimp only at hs
    split at hs
    · obtain ⟨sched, hsched, rfl⟩ := Option.map_eq_some_iff.mp hs
      exact h.sleep ‹_› hsched
    · cases hs
  | timerInterrupt =>
    obtain ⟨s1, hs1, halarms, -⟩ := h.timerInterrupt
    cases Option.some.inj (hs1.symm.trans hs)
    exact halarms
  | other a =>
    unfold Alarm.step at hs
    dsimp only at hs
    split at hs
    · rename_i hguard
      obtain ⟨sched, hsched, rfl⟩ := Option.map_eq_some_iff.mp hs
      obtain ⟨hsleep, hwake, hlives⟩ := step_quiet hguard.1 hsched
      refine h.reschedule (h.inv.step hsched) (hsleep ▸ List.suffix_rfl) hwake fun t ht => ?_
      exact hlives t (h.lives t ht) fun hrun => hguard.2.resolve_left (hrun ▸ ht)
    · cases hs

/-- **No alarm is missed** in a run in which every assignment to `wakeup_call_time` is in
time: the cached time is not after the time of any thread in `sleep_list`, and the next
timer interrupt leaves none there that is due. -/
theorem no_alarm_missed {t : τ} {value : σ → UInt32} {as : List (AlarmAct τ σ)}
    (hrun : Run Alarm.step Alarm.InTime (Alarm.init t value) as s) :
    (∀ u ∈ s.sched.lists .sleepList, s.wakeupCallTime ≤ s.sched.wakeupTime u) ∧
      ∃ s', s.step .timerInterrupt = some s' ∧ s'.ticks = s.ticks + 1 ∧
        ∀ u ∈ s'.sched.lists .sleepList, s'.ticks < s'.sched.wakeupTime u := by
  have halarms : Alarms s :=
    hrun.invariant (fun _ _ _ h htime hs => Alarms.step h htime hs) (init_alarms t value)
  obtain ⟨s', hs', -, hticks, hdue⟩ := halarms.timerInterrupt
  exact ⟨fun u hu => halarms.early u (.inl hu), s', hs', hticks, hdue⟩

end

def threeThreads : List (AlarmAct (Fin 3) (Fin 1)) :=
  [.other (.create 1 0), .other (.start 1), .other (.down 0), .other .becomeIdle, .other (.up 0),
    .other .idleBlock, .other (.create 2 31), .other (.start 2)]

/-- Thread 0 is switched away from after its assignment. -/
def twoSleepers : List (AlarmAct (Fin 3) (Fin 1)) :=
  threeThreads ++ [.timerSleep 10, .setWakeupTime, .compare, .assign, .other .yield, .timerSleep 5,
    .setWakeupTime, .compare, .assign, .sleep, .sleep]

/-- Thread 0 is switched away from between its comparison and its assignment. -/
def lateAssignment : List (AlarmAct (Fin 3) (Fin 1)) :=
  threeThreads ++ [.timerSleep 10, .setWakeupTime, .compare, .other .yield, .timerSleep 5,
    .setWakeupTime, .compare, .assign, .sleep, .assign]

/-- Thread 2, which is to be woken first, is the first in `sleep_list`. -/
theorem no_alarm_missed_two_sleepers : ∃ s : Alarm (Fin 3) (Fin 1),
    Run Alarm.step Alarm.InTime (Alarm.init 0 fun _ => 0) twoSleepers s ∧
    s.sched.lists .sleepList = [2, 0] ∧
    ∀ u ∈ s.sched.lists .sleepList, s.wakeupCallTime ≤ s.sched.wakeupTime u := by
  exact Run.exists_guarded (fun s => s.sched.lists .sleepList = [2, 0]) (by decide +kernel)
    fun s hrun hlist => ⟨hlist, (no_alarm_missed hrun).1⟩

/-- Thread 0 puts its own time in place of the earlier one of thread 2, which sleeps until
tick 5. After the interrupt at tick 5 thread 2 is still in `sleep_list`. -/
theorem alarm_missed : ∃ s s' : Alarm (Fin 3) (Fin 1),
    Run Alarm.step (fun _ _ => True) (Alarm.init 0 fun _ => 0) lateAssignment s ∧
    2 ∈ s.sched.lists .sleepList ∧ s.sched.wakeupTime 2 < s.wakeupCallTime ∧
    Run Alarm.step (fun _ _ => True) s (List.replicate 5 .timerInterrupt) s' ∧
    2 ∈ s'.sched.lists .sleepList ∧ s'.sched.wakeupTime 2 ≤ s'.ticks := by
  simp only [exists_and_left]
  decide +kernel

end Pintos.Threads
