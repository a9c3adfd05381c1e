import Mathlib.Algebra.GroupWithZero.Nat
import Mathlib.Data.List.Pairwise
import Pintos.Threads.Alarm

/-!
# Waking sleepers (`thread_sleep`, `thread_wakeup`)

`thread_sleep` keeps `sleep_list` in the order of the wake-up times, so `thread_wakeup` can
stop at the first thread that is not due. The elements it takes out of `sleep_list` are put
into `ready_list` at once, one after the other.

Each insertion into `sleep_list` is numbered; the program does not read the numbers.

The second part takes `timer_sleep` and the timer interrupt as one step each, and looks at
`wakeup_call_time`, the cached time of the next alarm: `update_wakeup_call_time` only lowers
it, so after a wake-up it stays at a time that is past.
-/

namespace Pintos.Threads

open Lib Function List Option

variable {τ σ : Type} [DecidableEq τ]

/-! ## The loop of thread_wakeup -/

def Sched.due (s : Sched τ σ) (ticks : Int) (l : List τ) : List τ :=
  l.filter fun t => s.wakeupTime t ≤ ticks

/-- From `s` to `s'` exactly the threads of `l` that are due are woken. -/
structure WakesDue (ticks : Int) (l : List τ) (s s' : Sched τ σ) : Prop where
  sleepers : s'.lists .sleepList = l.filter fun t => ticks < s.wakeupTime t
  ready : (s'.lists .readyList).Perm (s.due ticks l ++ s.lists .readyList)
  status : ∀ t, s'.status t = if t ∈ l ∧ s.wakeupTime t ≤ ticks then some .ready else s.status t
  priority : s'.priority = s.priority
  wakeupTime : s'.wakeupTime = s.wakeupTime
  /-- They are put into `ready_list` in the order of `l`. -/
  stamps : (s.due ticks l).Pairwise fun a b => s'.stamp a < s'.stamp b
  recent : ∀ t ∈ s.due ticks l, s.clock ≤ s'.stamp t
  kept : ∀ t, t ∉ l → s'.stamp t = s.stamp t

variable {l : List τ} {sched : Sched τ σ}

section
variable {s s' s'' : Sched τ σ} {t : τ} {ticks : Int} {rest : List τ}

/-- Nobody is due if the first thread is not. -/
theorem wakesDue_of_late (hl : s.lists .sleepList = l) (hlate : ∀ t ∈ l, ticks < s.wakeupTime t) :
    WakesDue ticks l s s := by
  have hdue : s.due ticks l = [] :=
    filter_eq_nil_iff.mpr fun t ht => by simpa using hlate t ht
  refine ⟨?_, ?_, fun t => ?_, rfl, rfl, ?_, ?_, fun _ _ => rfl⟩
  · rw [hl, filter_eq_self.mpr fun t ht => decide_eq_true (hlate t ht)]
  · rw [hdue, nil_append]
  · rw [if_neg fun ⟨ht, hle⟩ => Int.not_lt.mpr hle (hlate t ht)]
  · rw [hdue]
    exact .nil
  · rw [hdue]
    exact nofun

variable [DecidableEq σ]

theorem threadUnblock_eq (hs : s.threadUnblock t = some s') :
    s' = (s.pushReady t).setStatus t .ready := by
  unfold Sched.threadUnblock at hs
  split at hs
  · exact (Option.some.inj hs).symm
  · cases hs

/-- **One turn of the loop** wakes the first thread, and the others follow. -/
theorem WakesDue.cons (hdue : s.wakeupTime t ≤ ticks) (hrest : t ∉ rest)
    (hs : (s.setList .sleepList rest).threadUnblock t = some s') (h : WakesDue ticks rest s' s'') :
    WakesDue ticks (t :: rest) s s'' := by
  cases threadUnblock_eq hs
  have hcons : s.due ticks (t :: rest) = t :: s.due ticks rest :=
    filter_cons_of_pos (decide_eq_true hdue)
  have hstamp : s''.stamp t = s.clock := (h.kept t hrest).trans (update_self ..)
  refine ⟨?_, ?_, fun u => ?_, h.priority, h.wakeupTime, ?_, ?_, fun u hu => ?_⟩
  · rw [h.sleepers, filter_cons_of_neg (by simpa using hdue)]
    rfl
  · have hpush : (((s.setList .sleepList rest).pushReady t).lists .readyList).Perm
        (t :: s.lists .readyList) := by
      unfold Sched.pushReady
      rw [setList_self, setList_of_ne (by simp)]
      exact perm_orderedInsert _ t _
    rw [hcons]
    exact (h.ready.trans (hpush.append_left _)).trans perm_middle
  · rw [h.status]
    show (if u ∈ rest ∧ s.wakeupTime u ≤ ticks then _ else update s.status t _ u) = _
    by_cases hu : u = t
    · subst hu
      rw [if_neg fun hr => hrest hr.1, if_pos ⟨mem_cons_self, hdue⟩, update_self]
    · rw [update_of_ne hu]
      simp only [mem_cons, hu, false_or]
  · rw [hcons]
    refine pairwise_cons.mpr ⟨fun u hu => ?_, h.stamps⟩
    rw [hstamp]
    exact h.recent u hu
  · rw [hcons]
    refine forall_mem_cons.mpr ⟨hstamp.ge, fun u hu => ?_⟩
    exact (Nat.le_succ s.clock).trans (h.recent u hu)
  · rw [mem_cons, not_or] at hu
    exact (h.kept u hu.2).trans (update_of_ne hu.1 ..)

/-- **The loop of `thread_wakeup`** on a sorted list. -/
theorem wakeLoop_spec (ticks : Int) (h : SchedInv s) (hl : s.lists .sleepList = l)
    (hsorted : l.Pairwise fun a b => s.wakeupTime a ≤ s.wakeupTime b) :
    ∃ s', Sched.wakeLoop ticks l s = some s' ∧ WakesDue ticks l s s' :=
  wakeLoop_rule wakesDue_of_late WakesDue.cons h hl hsorted

omit [DecidableEq σ] in
theorem WakesDue.ordered (h : WakesDue ticks l s s') (hinv : SchedInv s) (hinv' : SchedInv s')
    (hl : s.lists .sleepList = l)
    (hsorted : l.Pairwise fun a b => s.wakeupTime a ≤ s.wakeupTime b) :
    ((s'.lists .readyList).filter (· ∈ l)).Pairwise fun a b =>
      s.priority b < s.priority a ∨ s.priority a = s.priority b ∧ s.wakeupTime a ≤ s.wakeupTime b := by
  -- a thread of `ready_list` that was asleep is one that was due
  have hdue : ∀ t, t ∈ (s'.lists .readyList).filter (· ∈ l) → t ∈ s.due ticks l := by
    intro t ht
    obtain ⟨hready, hmem⟩ := mem_filter.mp ht
    refine (mem_append.mp (h.ready.mem_iff.mp hready)).resolve_right fun hold => ?_
    cases hinv.exclusive.apart .readyList .sleepList t hold (hl ▸ of_decide_eq_true hmem)
  have hstamps : (s.due ticks l).Pairwise fun a b =>
      (s'.stamp a < s'.stamp b ∧ s.wakeupTime a ≤ s.wakeupTime b) ∨
      (s'.stamp b < s'.stamp a ∧ s.wakeupTime b ≤ s.wakeupTime a) :=
    (h.stamps.and (hsorted.sublist filter_sublist)).imp .inl
  refine (hinv'.sorted.sublist filter_sublist).imp_of_mem fun {a b} ha hb hbefore => ?_
  rw [h.priority] at hbefore
  refine hbefore.imp_right fun ⟨hpri, hstamp⟩ => ⟨hpri, ?_⟩
  have hne : a ≠ b := fun he => (he ▸ hstamp).false
  have : Std.Symm fun a b => (s'.stamp a < s'.stamp b ∧ s.wakeupTime a ≤ s.wakeupTime b) ∨
      (s'.stamp b < s'.stamp a ∧ s.wakeupTime b ≤ s.wakeupTime a) := ⟨fun _ _ => Or.symm⟩
  rcases hstamps.forall (hdue a ha) (hdue b hb) hne with ⟨-, hle⟩ | ⟨hlt, -⟩
  · exact hle
  · exact absurd hlt hstamp.asymm

end

/-! ## sleep_list in every state -/

/-- The scheduler, and the numbers of the insertions into `sleep_list`. -/
structure Sleepers (τ σ : Type) where
  sched : Sched τ σ
  sleptAt : τ → Nat
  sleeps : Nat

def SleepsBefore (wakeupTime : τ → Int) (sleptAt : τ → Nat) (a b : τ) : Prop :=
  wakeupTime a < wakeupTime b ∨ wakeupTime a = wakeupTime b ∧ sleptAt a < sleptAt b

namespace Sleepers

def init (t : τ) (value : σ → UInt32) : Sleepers τ σ := ⟨Sched.init t value, fun _ => 0, 0⟩

def step [DecidableEq σ] (s : Sleepers τ σ) (a : SchedAct τ σ) : Option (Sleepers τ σ) :=
  (s.sched.step a).map fun sched =>
    match a with
    | .sleep => ⟨sched, update s.sleptAt s.sched.running s.sleeps, s.sleeps + 1⟩
    | _ => { s with sched }

end Sleepers

/-- **The invariant** of `sleep_list`. -/
structure SleepOrder (s : Sleepers τ σ) : Prop where
  inv : SchedInv s.sched
  sorted : (s.sched.lists .sleepList).Pairwise (SleepsBefore s.sched.wakeupTime s.sleptAt)
  numbered : ∀ t ∈ s.sched.lists .sleepList, s.sleptAt t < s.sleeps

section
variable {s s' : Sleepers τ σ}

omit [DecidableEq τ] in
theorem sleepsBefore_iff {wakeupTime : τ → Int} {sleptAt : τ → Nat} {a b : τ} :
    SleepsBefore wakeupTime sleptAt a b ↔ Before (fun t => -wakeupTime t) sleptAt a b := by
  unfold SleepsBefore Before
  dsimp only
  omega

omit [DecidableEq τ] in
theorem SleepOrder.by_time (h : SleepOrder s) :
    (s.sched.lists .sleepList).Pairwise fun a b => s.sched.wakeupTime a ≤ s.sched.wakeupTime b := by
  refine h.sorted.imp fun hab => ?_
  rcases hab with hlt | ⟨heq, -⟩
  · exact hlt.le
  · exact heq.le

omit [DecidableEq τ] in
theorem SleepOrder.leave (h : SleepOrder s) (hinv : SchedInv sched)
    (hsub : (sched.lists .sleepList).Sublist (s.sched.lists .sleepList))
    (hwake : ∀ t ∈ s.sched.lists .sleepList, sched.wakeupTime t = s.sched.wakeupTime t) :
    SleepOrder { s with sched } := by
  refine ⟨hinv, (h.sorted.sublist hsub).imp_of_mem fun {a b} ha hb hab => ?_,
    fun t ht => h.numbered t (hsub.subset ht)⟩
  unfold SleepsBefore
  rw [hwake a (hsub.subset ha), hwake b (hsub.subset hb)]
  exact hab

theorem init_sleepOrder (t : τ) (value : σ → UInt32) : SleepOrder (Sleepers.init t value) :=
  ⟨init_schedInv t value, .nil, nofun⟩

variable [DecidableEq σ]

/-- **`thread_sleep`** puts the running thread behind those of its wake-up time. -/
theorem SleepOrder.sleep (h : SleepOrder s) (hs : s.sched.step .sleep = some sched) :
    SleepOrder ⟨sched, update s.sleptAt s.sched.running s.sleeps, s.sleeps + 1⟩ := by
  have hinv := h.inv.step hs
  simp only [Sched.step] at hs
  split at hs
  · obtain ⟨hsleepers, hwake, -⟩ := quiet_threadBlock hs
    rw [setList_self] at hsleepers
    replace hwake : sched.wakeupTime = s.sched.wakeupTime := hwake
    have hrun : s.sched.running ∉ s.sched.lists .sleepList := h.inv.running_not_mem .sleepList
    have hkept : ∀ t ∈ s.sched.lists .sleepList,
        update s.sleptAt s.sched.running s.sleeps t = s.sleptAt t := by
      intro t ht
      have hne : t ≠ s.sched.running := fun he => hrun (he ▸ ht)
      exact update_of_ne hne ..
    have hold : (s.sched.lists .sleepList).Pairwise (Before (fun t => -s.sched.wakeupTime t)
        (update s.sleptAt s.sched.running s.sleeps)) :=
      pairwise_before_congr (fun _ _ => rfl) hkept (h.sorted.imp sleepsBefore_iff.mp)
    have hlast : ∀ t ∈ s.sched.lists .sleepList,
        update s.sleptAt s.sched.running s.sleeps t <
          update s.sleptAt s.sched.running s.sleeps s.sched.running := by
      intro t ht
      rw [hkept t ht, update_self]
      exact h.numbered t ht
    refine ⟨hinv, ?_, fun t ht => ?_⟩
    · show (sched.lists .sleepList).Pairwise (SleepsBefore sched.wakeupTime _)
      rw [hsleepers, hwake]
      have hinsert := pairwise_before_orderedInsert hold hlast
      simp only [Int.neg_lt_neg_iff] at hinsert
      exact hinsert.imp sleepsBefore_iff.mpr
    · replace ht : t ∈ sched.lists .sleepList := ht
      rw [hsleepers, mem_orderedInsert] at ht
      show update s.sleptAt s.sched.running s.sleeps t < s.sleeps + 1
      rcases ht with rfl | ht
      · rw [update_self]
        exact Nat.lt_succ_self _
      · rw [hkept t ht]
        exact (h.numbered t ht).trans (Nat.lt_succ_self _)
  · cases hs

theorem SleepOrder.step (h : SleepOrder s) {a : SchedAct τ σ} (hs : s.step a = some s') :
    SleepOrder s' := by
  obtain ⟨sched, hsched, rfl⟩ := map_eq_some_iff.mp hs
  have hinv := h.inv.step hsched
  have hquiet : a.forClock = false → SleepOrder { s with sched } := fun ha => by
    obtain ⟨hsleep, hwake, -⟩ := step_quiet ha hsched
    exact h.leave hinv (hsleep ▸ .refl _) fun t ht => hwake t (h.inv.sleeper_lives ht)
  cases a with
  | sleep => exact h.sleep hsched
  | wakeup ticks =>
    obtain ⟨s1, hs1, hwoken⟩ := wakeLoop_spec ticks h.inv rfl h.by_time
    cases hsched.symm.trans hs1
    refine h.leave hinv ?_ fun t _ => congrFun hwoken.wakeupTime t
    rw [hwoken.sleepers]
    exact filter_sublist
  | setWakeupTime time =>
    cases hsched
    refine h.leave hinv (.refl _) fun t ht => update_of_ne (fun he => ?_) ..
    exact h.inv.running_not_mem .sleepList (he ▸ ht)
  | _ => exact hquiet rfl

structure WakeupCall (s s' : Sched τ σ) (ticks : Int) : Prop where
  sleepers : s'.lists .sleepList = (s.lists .sleepList).filter fun t => ticks < s.wakeupTime t
  /-- Each thread that is due is put into `ready_list` once. -/
  woken : (s'.lists .readyList).Perm
    (((s.lists .sleepList).filter fun t => s.wakeupTime t ≤ ticks) ++ s.lists .readyList)
  once : (s'.lists .readyList).Nodup
  status : ∀ t, s'.status t =
    if t ∈ s.lists .sleepList ∧ s.wakeupTime t ≤ ticks then some .ready else s.status t
  order : ((s'.lists .readyList).filter (· ∈ s.lists .sleepList)).Pairwise fun a b =>
    s.priority b < s.priority a ∨ s.priority a = s.priority b ∧ s.wakeupTime a ≤ s.wakeupTime b

/-- **`thread_wakeup` wakes exactly the threads that are due**, in every state that the threads
can reach and at every tick. -/
theorem wakeup_wakes_due_threads {t : τ} {value : σ → UInt32} {as : List (SchedAct τ σ)}
    (hrun : Run Sleepers.step (fun _ _ => True) (Sleepers.init t value) as s) :
    (s.sched.lists .sleepList).Pairwise (SleepsBefore s.sched.wakeupTime s.sleptAt) ∧
      ∀ ticks, ∃ s', s.sched.threadWakeup ticks = some s' ∧ WakeupCall s.sched s' ticks := by
  have h : SleepOrder s :=
    hrun.invariant (fun _ _ _ h _ hs => SleepOrder.step h hs) (init_sleepOrder t value)
  refine ⟨h.sorted, fun ticks => ?_⟩
  obtain ⟨s', hs', hwoken⟩ := wakeLoop_spec ticks h.inv rfl h.by_time
  have hinv' : SchedInv s' := h.inv.wakeLoop rfl hs'
  exact ⟨s', hs', hwoken.sleepers, hwoken.ready, hinv'.exclusive.nodup _, hwoken.status,
    hwoken.ordered h.inv hinv' rfl h.by_time⟩

end

/-- Thread 1 becomes the idle thread; threads 0 and 2 sleep until tick 5. -/
theorem wakeup_wakes_due_threads_two_sleepers : ∃ s : Sleepers (Fin 3) (Fin 1),
    Run Sleepers.step (fun _ _ => True) (Sleepers.init 0 fun _ => 0)
      [.create 1 0, .start 1, .down 0, .becomeIdle, .up 0, .idleBlock, .create 2 31, .start 2,
        .setWakeupTime 5, .sleep, .setWakeupTime 5, .sleep] s ∧
    s.sched.lists .sleepList = [0, 2] ∧
    ∃ s', s.sched.threadWakeup 5 = some s' ∧ WakeupCall s.sched s' 5 := by
  exact Run.exists_guarded (fun s => s.sched.lists .sleepList = [0, 2]) (by decide +kernel)
    fun s hrun hs => ⟨hs, (wakeup_wakes_due_threads hrun).2 5⟩

/-! ## The cached time -/

inductive ClockAct (τ σ : Type) where
  | timerSleep (ticks : Int)
  | timerInterrupt
  /-- a step that has nothing to do with the clock -/
  | other (a : SchedAct τ σ)

namespace Alarm

/-- `timer_sleep`, if nothing comes in between. -/
def timerSleep [DecidableEq σ] (s : Alarm τ σ) (ticks : Int) : Option (Alarm τ σ) := do
  let sched ← s.sched.step (.setWakeupTime (ticks + s.ticks))
  let s := { s with sched }.updateWakeupCallTime (ticks + s.ticks)
  let sched ← s.sched.step .sleep
  some { s with sched }

def atomicStep [DecidableEq σ] (s : Alarm τ σ) : ClockAct τ σ → Option (Alarm τ σ)
  | .timerSleep ticks => s.timerSleep ticks
  | .timerInterrupt => s.timerInterrupt
  | .other a => if a.forClock = false then (s.sched.step a).map fun sched => { s with sched } else none

/-- `wakeup_call_time` is the earliest time of a thread in `sleep_list`. -/
def Exact (s : Alarm τ σ) : Prop :=
  match s.sched.lists .sleepList with
  | [] => s.wakeupCallTime = INT64_MAX
  | l => (∃ t ∈ l, s.wakeupCallTime = s.sched.wakeupTime t) ∧
      ∀ t ∈ l, s.wakeupCallTime ≤ s.sched.wakeupTime t

end Alarm

/-- **The invariant**: `sleep_list` is sorted, and the cached time is one. -/
structure Clock (s : Alarm τ σ) : Prop where
  sleepers : ∃ sleptAt sleeps, SleepOrder ⟨s.sched, sleptAt, sleeps⟩
  bounded : s.wakeupCallTime ≤ INT64_MAX

section
variable {s s' : Alarm τ σ}

omit [DecidableEq τ] in
theorem updateWakeupCallTime_le (time : Int) :
    (s.updateWakeupCallTime time).wakeupCallTime ≤ s.wakeupCallTime := by
  unfold Alarm.updateWakeupCallTime
  split
  · rename_i hlt
    exact hlt.le
  · exact le_refl _

omit [DecidableEq τ] in
theorem Clock.updateWakeupCallTime (h : Clock s) (time : Int) : Clock (s.updateWakeupCallTime time) := by
  refine ⟨?_, (updateWakeupCallTime_le time).trans h.bounded⟩
  rw [(updateWakeupCallTime_sched time).1]
  exact h.sleepers

theorem init_clock (t : τ) (value : σ → UInt32) : Clock (Alarm.init t value) :=
  ⟨⟨_, _, init_sleepOrder t value⟩, le_refl _⟩

variable [DecidableEq σ]

theorem Clock.reschedule (h : Clock s) {a : SchedAct τ σ} (hs : s.sched.step a = some sched) :
    Clock { s with sched } := by
  obtain ⟨sleptAt, sleeps, horder⟩ := h.sleepers
  have hstep : Sleepers.step ⟨s.sched, sleptAt, sleeps⟩ a = some _ := congrArg (Option.map _) hs
  refine ⟨?_, h.bounded⟩
  cases a with
  | sleep => exact ⟨_, _, horder.step hstep⟩
  | _ => exact ⟨_, _, horder.step hstep⟩

/-- **`thread_wakeup`** takes out the threads that are due, and leaves the cached time unless
a thread that it leaves is earlier. -/
theorem Clock.threadWakeup (h : Clock s) (ticks : Int) : ∃ s', s.threadWakeup ticks = some s' ∧
    Clock s' ∧ s'.ticks = s.ticks ∧ s'.sched.wakeupTime = s.sched.wakeupTime ∧
    s'.sched.lists .sleepList =
      (s.sched.lists .sleepList).filter (fun t => ticks < s.sched.wakeupTime t) ∧
    (s.wakeupCallTime ≤ ticks → s'.wakeupCallTime = s.wakeupCallTime) := by
  obtain ⟨sleptAt, sleeps, horder⟩ := h.sleepers
  obtain ⟨sched, hsched, hwoken⟩ := wakeLoop_spec ticks horder.inv rfl horder.by_time
  have hclock : Clock { s with sched } := h.reschedule (a := .wakeup ticks) hsched
  replace hsched : s.sched.threadWakeup ticks = some sched := hsched
  have hfind : ∃ time, s.threadWakeup ticks = some ({ s with sched }.updateWakeupCallTime time) ∧
      (s.wakeupCallTime ≤ ticks → s.wakeupCallTime ≤ time) := by
    cases hl : sched.lists .sleepList with
    | nil =>
      refine ⟨INT64_MAX, ?_, fun _ => h.bounded⟩
      simp only [Alarm.threadWakeup, hsched, Option.map_some, hl]
    | cons t rest =>
      refine ⟨sched.wakeupTime t, ?_, fun hle => ?_⟩
      · simp only [Alarm.threadWakeup, hsched, Option.map_some, hl]
      have hmem : t ∈ (s.sched.lists .sleepList).filter fun t => ticks < s.sched.wakeupTime t := by
        rw [← hwoken.sleepers, hl]
        exact mem_cons_self
      rw [hwoken.wakeupTime]
      exact hle.trans (of_decide_eq_true (mem_filter.mp hmem).2).le
  obtain ⟨time, hs', hkeep⟩ := hfind
  obtain ⟨hsame, hticks⟩ := updateWakeupCallTime_sched (s := { s with sched }) time
  refine ⟨_, hs', hclock.updateWakeupCallTime time, hticks, ?_, ?_, fun hle => ?_⟩
  · rw [hsame]
    exact hwoken.wakeupTime
  · rw [hsame]
    exact hwoken.sleepers
  · have hsame' : { s with sched }.updateWakeupCallTime time = { s with sched } :=
      if_neg (Int.not_lt.mpr (hkeep hle))
    rw [hsame']

theorem Clock.step (h : Clock s) {a : ClockAct τ σ} (hs : s.atomicStep a = some s') : Clock s' := by
  cases a with
  | timerSleep ticks =>
    have hset : Clock { s with sched := { s.sched with
        wakeupTime := update s.sched.wakeupTime s.sched.running (ticks + s.ticks) } } :=
      h.reschedule (a := .setWakeupTime (ticks + s.ticks)) rfl
    obtain ⟨sched, hsleep, hs⟩ := bind_eq_some_iff.mp hs
    cases hs
    exact (hset.updateWakeupCallTime _).reschedule hsleep
  | timerInterrupt =>
    simp only [Alarm.atomicStep, Alarm.timerInterrupt] at hs
    have hticks : Clock { s with ticks := s.ticks + 1 } := ⟨h.sleepers, h.bounded⟩
    split at hs
    · obtain ⟨s1, hs1, hclock, -⟩ := hticks.threadWakeup (s.ticks + 1)
      cases hs.symm.trans hs1
      exact hclock
    · cases hs
      exact hticks
  | other a =>
    simp only [Alarm.atomicStep] at hs
    split at hs
    · obtain ⟨sched, hsched, rfl⟩ := map_eq_some_iff.mp hs
      exact h.reschedule hsched
    · cases hs

/-- **The cached time after a wake-up** is that of the next alarm only if it was the largest
time before, and every thread was due. -/
theorem cache_exact_after_wakeup_iff {t : τ} {value : σ → UInt32} {as : List (ClockAct τ σ)}
    (hrun : Run Alarm.atomicStep (fun _ _ => True) (Alarm.init t value) as s)
    (hcall : s.wakeupCallTime ≤ s.ticks + 1) :
    ∃ s', s.atomicStep .timerInterrupt = some s' ∧ s'.wakeupCallTime ≤ s'.ticks + 1 ∧
      (s'.Exact ↔ s.wakeupCallTime = INT64_MAX ∧
        ∀ u ∈ s.sched.lists .sleepList, s.sched.wakeupTime u ≤ s.ticks + 1) := by
  have h : Clock s := hrun.invariant (fun _ _ _ h _ hs => Clock.step h hs) (init_clock t value)
  have hnext : Clock { s with ticks := s.ticks + 1 } := ⟨h.sleepers, h.bounded⟩
  obtain ⟨s', hs', -, hticks, hwake, hlist, hkeep⟩ := hnext.threadWakeup (s.ticks + 1)
  replace hkeep : s'.wakeupCallTime = s.wakeupCallTime := hkeep hcall
  replace hwake : s'.sched.wakeupTime = s.sched.wakeupTime := hwake
  replace hticks : s'.ticks = s.ticks + 1 := hticks
  refine ⟨s', ?_, by omega, ?_⟩
  · rw [Alarm.atomicStep, Alarm.timerInterrupt, if_pos hcall]
    exact hs'
  have hlate : ∀ u ∈ s'.sched.lists .sleepList, s.ticks + 1 < s.sched.wakeupTime u := by
    intro u hu
    rw [hlist] at hu
    exact of_decide_eq_true (mem_filter.mp hu).2
  unfold Alarm.Exact
  cases hl : s'.sched.lists .sleepList with
  | nil =>
    have hnone := filter_eq_nil_iff.mp (hlist.symm.trans hl)
    simp only [hkeep, iff_self_and]
    exact fun _ u hu => by simpa using hnone u hu
  | cons u rest =>
    -- the cached time is past, and `u` is not due
    have hu := hlate u (hl ▸ mem_cons_self)
    refine iff_of_false (fun ⟨⟨v, hv, heq⟩, _⟩ => ?_) fun ⟨_, hall⟩ => ?_
    · have hv' := hlate v (hl ▸ hv)
      rw [hwake] at heq
      omega
    · have hmem : u ∈ s'.sched.lists .sleepList := hl ▸ mem_cons_self
      rw [hlist] at hmem
      have := hall u (mem_filter.mp hmem).1
      omega

end

section
local instance neZero_threads : NeZero 2 := ⟨by decide⟩
local instance neZero_semas : NeZero 1 := ⟨by decide⟩

/-- Thread 1 becomes the idle thread, and thread 0 sleeps for a tick. -/
def oneSleeper : List (ClockAct (Fin 2) (Fin 1)) :=
  [.other (.create 1 0), .other (.start 1), .other (.down 0), .other .becomeIdle, .other (.up 0),
    .other .idleBlock, .timerSleep 1]

end

def oneTick : List (ClockAct (Fin 2) (Fin 1)) := oneSleeper ++ [.timerInterrupt]

/-- The interrupt at tick 1 wakes thread 0 and leaves the cached time at 1. -/
theorem cache_exact_after_wakeup_iff_one_sleeper : ∃ s s' : Alarm (Fin 2) (Fin 1),
    Run Alarm.atomicStep (fun _ _ => True) (Alarm.init 0 fun _ => 0) oneSleeper s ∧
    s.wakeupCallTime = 1 ∧ s.atomicStep .timerInterrupt = some s' ∧
    (s'.Exact ↔ s.wakeupCallTime = INT64_MAX ∧
      ∀ u ∈ s.sched.lists .sleepList, s.sched.wakeupTime u ≤ s.ticks + 1) := by
  obtain ⟨s, hrun, hone, hticks⟩ : ∃ s : Alarm (Fin 2) (Fin 1),
      Run Alarm.atomicStep (fun _ _ => True) (Alarm.init 0 fun _ => 0) oneSleeper s ∧
      s.wakeupCallTime = 1 ∧ s.ticks = 0 := by decide +kernel
  obtain ⟨s', hs', -, hexact⟩ := cache_exact_after_wakeup_iff hrun (by omega)
  exact ⟨s, s', hrun, hone, hs', hexact⟩

/-- After it no thread sleeps, the cached time is still 1 and not the largest time, and the
interrupts at ticks 2 and 3 call `thread_wakeup` for nobody. -/
theorem cache_stale_after_wakeup : ∃ s s' : Alarm (Fin 2) (Fin 1),
    Run Alarm.atomicStep (fun _ _ => True) (Alarm.init 0 fun _ => 0) oneTick s ∧
    s.sched.lists .sleepList = [] ∧ s.wakeupCallTime = 1 ∧ ¬ s.Exact ∧
    s.atomicStep .timerInterrupt = some s' ∧ s.wakeupCallTime ≤ s.ticks + 1 ∧
    s'.sched.lists .sleepList = [] ∧ s'.wakeupCallTime ≤ s'.ticks + 1 := by
  obtain ⟨s, hrun, hnone, hone, hticks, s', hs', hnone', hagain⟩ :
      ∃ s : Alarm (Fin 2) (Fin 1),
        Run Alarm.atomicStep (fun _ _ => True) (Alarm.init 0 fun _ => 0) oneTick s ∧
        s.sched.lists .sleepList = [] ∧ s.wakeupCallTime = 1 ∧ s.ticks = 1 ∧
        ∃ s', s.atomicStep .timerInterrupt = some s' ∧ s'.sched.lists .sleepList = [] ∧
          s'.wakeupCallTime ≤ s'.ticks + 1 := by
    decide +kernel
  refine ⟨s, s', hrun, hnone, hone, fun hexact => ?_, hs', by omega, hnone', hagain⟩
  simp only [Alarm.Exact, hnone, hone] at hexact
  exact absurd hexact (by decide)

end Pintos.Threads
