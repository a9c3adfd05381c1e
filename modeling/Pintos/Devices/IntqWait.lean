import Pintos.Devices.Intq

/-!
# Waiting for an interrupt queue (`devices/intq.c`)

A thread that finds the queue empty (or full) takes the lock of the queue, stores itself
in `not_empty` (or `not_full`) and blocks; whoever adds (or removes) a byte unblocks it.
The lock is held while it waits, so that one thread at most is stored.

Interrupts are off in all of this: a thread gives up the processor only in `thread_block`,
in `wait` or inside `lock_acquire`. A step takes a thread from where it last gave up the
processor to where it does so again or returns; a handler runs between two steps. A step
without a result is a failed assertion, `enabled` says which steps can be made.

The queue is tested before `lock_acquire`, and not again before `wait`.
-/

namespace Pintos.Devices

open Lib Threads Function

variable {τ : Type}

/-! ## The machine -/

inductive IntqPc where
  | out
  /-- inside `lock_acquire` -/
  | acquiring (call : IntqCall)
  /-- in the `thread_block` of `wait` -/
  | waiting (call : IntqCall)
deriving DecidableEq

structure Waiters (τ : Type) where
  queue : Intq τ
  pc : τ → IntqPc
  /-- `THREAD_BLOCKED` -/
  blocked : τ → Bool

inductive IntqAct (τ : Type) where
  | call (t : τ) (c : IntqCall)
  | resume (t : τ)
  /-- a call made by an interrupt handler -/
  | handler (c : IntqCall)

def Waiters.start (buf : Arr 64 UInt8) : Waiters τ := ⟨intqInit buf, fun _ => .out, fun _ => false⟩

/-- The test of the loop in `intq_getc` and `intq_putc`. -/
def Intq.mustWait (q : Intq τ) : IntqCall → Bool
  | .getc => q.intqEmpty
  | .putc _ => q.intqFull

/-- The calls after their loops, and the thread that is unblocked. -/
def Intq.finish (q : Intq τ) : IntqCall → Option (Option τ × Intq τ)
  | .getc => q.getByte.map Prod.snd
  | .putc byte => q.putByte byte

def Intq.setWaiter (q : Intq τ) (t : τ) : IntqCall → Intq τ
  | .getc => { q with notEmpty := some t }
  | .putc _ => { q with notFull := some t }

namespace Waiters

variable [DecidableEq τ]

def unblock (s : Waiters τ) : Option τ → Option (Waiters τ)
  | none => some s
  | some t =>
    -- ASSERT (t->status == THREAD_BLOCKED)
    if s.blocked t then some { s with blocked := update s.blocked t false } else none

def block (s : Waiters τ) (t : τ) (pc : IntqPc) : Waiters τ :=
  { s with pc := update s.pc t pc, blocked := update s.blocked t true }

def wait (s : Waiters τ) (t : τ) (c : IntqCall) : Option (Waiters τ) :=
  -- ASSERT: the condition that is waited for does not hold
  if s.queue.mustWait c then
    some ({ s with queue := s.queue.setWaiter t c }.block t (.waiting c))
  else none

def semaDown (s : Waiters τ) (t : τ) (c : IntqCall) : Option (Waiters τ) :=
  match semaTest s.queue.lock.semaphore t with
  | (false, sema) =>
    some ({ s with queue.lock.semaphore := sema }.block t (.acquiring c))
  | (true, sema) => { s with queue.lock := ⟨some t, sema⟩ }.wait t c

def lockAcquire (s : Waiters τ) (t : τ) (c : IntqCall) : Option (Waiters τ) :=
  -- ASSERT (!lock_held_by_current_thread (lock))
  if s.queue.lock.holder = some t then none else s.semaDown t c

def finish (s : Waiters τ) (c : IntqCall) : Option (Waiters τ) := do
  let (waiter, queue) ← s.queue.finish c
  { s with queue }.unblock waiter

/-- The loop of `intq_getc` and `intq_putc`, and what follows it. -/
def loop (s : Waiters τ) (t : τ) (c : IntqCall) : Option (Waiters τ) :=
  if s.queue.mustWait c then s.lockAcquire t c
  else { s with pc := update s.pc t .out }.finish c

def lockRelease (s : Waiters τ) (t : τ) : Option (Waiters τ) :=
  -- ASSERT (lock_held_by_current_thread (lock))
  if s.queue.lock.holder = some t then
    match semaUp s.queue.lock.semaphore with
    | (waiter, sema) => { s with queue.lock := ⟨none, sema⟩ }.unblock waiter
  else none

def enabled (s : Waiters τ) : IntqAct τ → Bool
  | .call t _ => s.pc t = .out && !s.blocked t
  | .resume t => s.pc t ≠ .out && !s.blocked t
  | .handler c => !s.queue.mustWait c

def step (s : Waiters τ) : IntqAct τ → Option (Waiters τ)
  | .call t c => s.loop t c
  | .resume t =>
    match s.pc t with
    | .out => some s
    | .acquiring c => s.semaDown t c
    | .waiting c => (s.lockRelease t).bind fun s => s.loop t c
  | .handler c => s.finish c

end Waiters

def Waiters.lockFree (s : Waiters τ) : IntqAct τ → Bool
  | .call _ c => !s.queue.mustWait c || s.queue.lock.semaphore.value ≠ 0
  | _ => true

/-! ## What holds between two steps -/

/-- One thread at most waits: it has the lock, and is stored while it is blocked. -/
structure Waiting (s : Waiters τ) : Prop where
  stores : ∃ put got, Stores s.queue put got
  waiters : s.queue.lock.semaphore.waiters = []
  value : s.queue.lock.holder = none → s.queue.lock.semaphore.value = 1
  taken : ∀ t, s.queue.lock.holder = some t → s.queue.lock.semaphore.value = 0
  holder : ∀ t, s.queue.lock.holder = some t ↔ s.pc t ≠ .out
  place : ∀ t c, s.pc t ≠ .acquiring c
  blocked : ∀ t, s.blocked t = true ↔ s.queue.notEmpty = some t ∨ s.queue.notFull = some t
  notEmpty : ∀ t, s.queue.notEmpty = some t → s.pc t = .waiting .getc
  notFull : ∀ t, s.queue.notFull = some t → ∃ byte, s.pc t = .waiting (.putc byte)

theorem waiting_start (buf : Arr 64 UInt8) : Waiting (Waiters.start buf : Waiters τ) where
  stores := ⟨[], 0, stores_init buf⟩
  waiters := rfl
  value _ := rfl
  taken _ h := nomatch h
  holder _ := ⟨nofun, fun h => absurd rfl h⟩
  place _ _ := nofun
  blocked _ := ⟨nofun, fun h => h.elim nofun nofun⟩
  notEmpty _ h := nomatch h
  notFull _ h := nomatch h

section
variable {s s' : Waiters τ} {t : τ} {c : IntqCall}

theorem Waiting.nobody (h : Waiting s) (hfree : s.queue.lock.holder = none) :
    (∀ t, s.pc t = .out) ∧ s.queue.notEmpty = none ∧ s.queue.notFull = none := by
  have hout : ∀ t, s.pc t = .out := by
    intro t
    by_contra hpc
    rw [(h.holder t).mpr hpc] at hfree
    cases hfree
  refine ⟨hout, Option.eq_none_iff_forall_ne_some.mpr fun t ht => ?_,
    Option.eq_none_iff_forall_ne_some.mpr fun t ht => ?_⟩
  · have := (hout t).symm.trans (h.notEmpty t ht)
    cases this
  · obtain ⟨byte, hpc⟩ := h.notFull t ht
    have := (hout t).symm.trans hpc
    cases this

variable [DecidableEq τ]

/-- **`signal`** finds the stored thread blocked. -/
theorem Waiting.unblock (h : Waiting s) {queue : Intq τ} {put : List UInt8} {got : Nat}
    (hstores : Stores queue put got) (hlock : queue.lock = s.queue.lock) {waiter : Option τ}
    (hwaiter : (waiter = s.queue.notFull ∧ queue.notFull = none ∧ queue.notEmpty = s.queue.notEmpty) ∨
      (waiter = s.queue.notEmpty ∧ queue.notEmpty = none ∧ queue.notFull = s.queue.notFull)) :
    ∃ s', { s with queue }.unblock waiter = some s' ∧ Waiting s' ∧ s'.queue = queue ∧ s'.pc = s.pc := by
  -- the thread that is no longer stored is the only one that is no longer blocked
  have hstored : ∀ u, queue.notEmpty = some u ∨ queue.notFull = some u ↔
      s.blocked u = true ∧ waiter ≠ some u := by
    intro u
    rw [h.blocked]
    rcases hwaiter with ⟨rfl, hnone, hsame⟩ | ⟨rfl, hnone, hsame⟩
    · rw [hnone, hsame]
      refine ⟨fun hu => ?_, fun hu => Or.inl (hu.1.resolve_right hu.2)⟩
      have hempty := hu.resolve_right nofun
      refine ⟨Or.inl hempty, fun hfull => ?_⟩
      obtain ⟨byte, hpc⟩ := h.notFull u hfull
      cases hpc.symm.trans (h.notEmpty u hempty)
    · rw [hnone, hsame]
      refine ⟨fun hu => ?_, fun hu => Or.inr (hu.1.resolve_left hu.2)⟩
      have hfull := hu.resolve_left nofun
      refine ⟨Or.inr hfull, fun hempty => ?_⟩
      obtain ⟨byte, hpc⟩ := h.notFull u hfull
      cases hpc.symm.trans (h.notEmpty u hempty)
  have hnotEmpty : ∀ u, queue.notEmpty = some u → s.pc u = .waiting .getc := by
    intro u hu
    rcases hwaiter with ⟨-, -, hsame⟩ | ⟨-, hnone, -⟩
    · exact h.notEmpty u (hsame ▸ hu)
    · rw [hnone] at hu
      cases hu
  have hnotFull : ∀ u, queue.notFull = some u → ∃ byte, s.pc u = .waiting (.putc byte) := by
    intro u hu
    rcases hwaiter with ⟨-, hnone, -⟩ | ⟨-, -, hsame⟩
    · rw [hnone] at hu
      cases hu
    · exact h.notFull u (hsame ▸ hu)
  have hwaiting : ∀ blocked : τ → Bool, (∀ u, blocked u = true ↔ s.blocked u = true ∧ waiter ≠ some u) →
      Waiting { s with queue, blocked } := fun blocked hblocked =>
    { stores := ⟨put, got, hstores⟩
      waiters := by
        show queue.lock.semaphore.waiters = []
        rw [hlock]
        exact h.waiters
      value := by
        show queue.lock.holder = none → queue.lock.semaphore.value = 1
        rw [hlock]
        exact h.value
      taken := by
        show ∀ u, queue.lock.holder = some u → queue.lock.semaphore.value = 0
        rw [hlock]
        exact h.taken
      holder := by
        show ∀ u, queue.lock.holder = some u ↔ s.pc u ≠ .out
        rw [hlock]
        exact h.holder
      place := h.place
      blocked := fun u => (hblocked u).trans (hstored u).symm
      notEmpty := hnotEmpty
      notFull := hnotFull }
  cases waiter with
  | none => exact ⟨_, rfl, hwaiting s.blocked fun u => by simp, rfl, rfl⟩
  | some u =>
    have hblocked : s.blocked u = true := by
      rw [h.blocked]
      rcases hwaiter with ⟨hw, -, -⟩ | ⟨hw, -, -⟩
      · exact .inr hw.symm
      · exact .inl hw.symm
    refine ⟨_, if_pos hblocked, hwaiting _ fun v => ?_, rfl, rfl⟩
    by_cases hv : v = u
    · rw [hv, update_self]
      simp
    · rw [update_of_ne hv]
      exact ⟨fun hb => ⟨hb, fun he => hv (Option.some.inj he).symm⟩, fun hb => hb.1⟩

/-- **The end of a call** that need not wait. -/
theorem Waiting.finish (h : Waiting s) (hwait : s.queue.mustWait c = false) :
    ∃ s', s.finish c = some s' ∧ Waiting s' ∧ s'.pc = s.pc := by
  obtain ⟨put, got, hstores⟩ := h.stores
  cases c with
  | getc =>
    obtain ⟨byte, queue, hget, -, hstores', hnone, hsame, hlock⟩ := hstores.getByte hwait
    obtain ⟨s', hs', hwaiting, -, hpc⟩ := h.unblock hstores' hlock (.inl ⟨rfl, hnone, hsame⟩)
    refine ⟨s', ?_, hwaiting, hpc⟩
    simp only [Waiters.finish, Intq.finish, hget, Option.map_some, some_bind]
    exact hs'
  | putc byte =>
    obtain ⟨queue, hput, hstores', hnone, hsame, hlock⟩ := hstores.putByte hwait byte
    obtain ⟨s', hs', hwaiting, -, hpc⟩ := h.unblock hstores' hlock (.inr ⟨rfl, hnone, hsame⟩)
    refine ⟨s', ?_, hwaiting, hpc⟩
    simp only [Waiters.finish, Intq.finish, hput, some_bind]
    exact hs'

def Waiters.parked (s : Waiters τ) (t : τ) (c : IntqCall) : Waiters τ :=
  { s with queue := { s.queue with lock := ⟨some t, ⟨0, []⟩⟩ }.setWaiter t c }.block t (.waiting c)

omit [DecidableEq τ] in
theorem Stores.setWaiter {q : Intq τ} {put : List UInt8} {got : Nat} (h : Stores q put got) :
    Stores (q.setWaiter t c) put got := by
  cases c <;> exact { h with }

/-- **A thread waits**, if the lock is free. -/
theorem Waiting.parked (h : Waiting s) (hfree : s.queue.lock.holder = none) : Waiting (s.parked t c) := by
  obtain ⟨hout, hempty, hfull⟩ := h.nobody hfree
  obtain ⟨put, got, hring, hhead, htail⟩ := h.stores
  have hlock : (s.parked t c).queue.lock = ⟨some t, ⟨0, []⟩⟩ := by cases c <;> rfl
  have hself : (s.parked t c).pc t = .waiting c := update_self ..
  have hother : ∀ {u}, u ≠ t → (s.parked t c).pc u = .out := fun hu =>
    (update_of_ne hu ..).trans (hout _)
  have hblocked : ∀ u, (s.parked t c).blocked u = true ↔ u = t := by
    intro u
    show update s.blocked t true u = true ↔ u = t
    by_cases hu : u = t
    · rw [hu, update_self]
      simp
    · rw [update_of_ne hu, h.blocked, hempty, hfull]
      simp [hu]
  refine ⟨⟨put, got, ?_⟩, by rw [hlock], by rw [hlock]; exact nofun, by rw [hlock]; exact fun _ _ => rfl,
    fun u => ?_, fun u c' hu => ?_, fun u => ?_, fun u hu => ?_, fun u hu => ?_⟩
  · exact Stores.setWaiter ⟨hring, hhead, htail⟩
  · rw [hlock]
    by_cases hu : u = t
    · rw [hu, hself]
      simp
    · rw [hother hu]
      simp [Ne.symm hu]
  · by_cases hut : u = t
    · rw [hut, hself] at hu
      cases hu
    · rw [hother hut] at hu
      cases hu
  · rw [hblocked]
    cases c with
    | getc =>
      show _ ↔ some t = some u ∨ s.queue.notFull = some u
      simp [hfull, eq_comm]
    | putc byte =>
      show _ ↔ s.queue.notEmpty = some u ∨ some t = some u
      simp [hempty, eq_comm]
  · cases c with
    | getc =>
      cases Option.some.inj (show some t = some u from hu)
      exact hself
    | putc byte =>
      rw [show s.queue.notEmpty = some u from hu] at hempty
      cases hempty
  · cases c with
    | getc =>
      rw [show s.queue.notFull = some u from hu] at hfull
      cases hfull
    | putc byte =>
      cases Option.some.inj (show some t = some u from hu)
      exact ⟨byte, hself⟩

/-- The loop of a call, while the lock is free: whether the thread has been waiting before
does not matter. -/
theorem loop_out : s.loop t c = { s with pc := update s.pc t .out }.loop t c := by
  unfold Waiters.loop Waiters.lockAcquire Waiters.semaDown Waiters.wait Waiters.block
  simp only [update_idem]

theorem Waiting.loop (h : Waiting s) (hpc : s.pc t = .out)
    (hfree : s.queue.mustWait c = true → s.queue.lock.holder = none) :
    ∃ s', s.loop t c = some s' ∧ Waiting s' := by
  have hsame : { s with pc := update s.pc t .out } = s := by
    rw [← hpc, update_eq_self]
  unfold Waiters.loop
  cases hwait : s.queue.mustWait c with
  | true =>
    have hnone := hfree hwait
    refine ⟨s.parked t c, ?_, h.parked hnone⟩
    have hsema : s.queue.lock.semaphore = ⟨1, []⟩ := by
      rw [← h.value hnone, ← h.waiters]
    rw [if_pos rfl, Waiters.lockAcquire, hnone, if_neg nofun, Waiters.semaDown, hsema,
      show semaTest (⟨1, []⟩ : Semaphore τ) t = (true, ⟨0, []⟩) by simp [semaTest]]
    have hwait' : ({ s.queue with lock := ⟨some t, ⟨0, []⟩⟩ } : Intq τ).mustWait c = true := by
      cases c <;> exact hwait
    exact if_pos hwait'
  | false =>
    rw [if_neg Bool.false_ne_true, hsame]
    obtain ⟨s', hs', hwaiting, -⟩ := h.finish hwait
    exact ⟨s', hs', hwaiting⟩

/-- **`lock_release`** by the thread that has been waiting. -/
theorem Waiting.lockRelease (h : Waiting s) (hpc : s.pc t ≠ .out) (hready : s.blocked t = false) :
    ∃ s₁, s.lockRelease t = some s₁ ∧ Waiting { s₁ with pc := update s₁.pc t .out } ∧
      s₁.queue.lock.holder = none := by
  have hholder := (h.holder t).mpr hpc
  have hup : semaUp s.queue.lock.semaphore = (none, ⟨s.queue.lock.semaphore.value + 1, []⟩) := by
    unfold semaUp
    rw [h.waiters]
  -- the others are out, and nobody is stored
  have hout : ∀ u, update s.pc t .out u = .out := by
    intro u
    by_cases hu : u = t
    · rw [hu, update_self]
    · rw [update_of_ne hu]
      by_contra hpc'
      exact hu (Option.some.inj ((h.holder u).mpr hpc' ▸ hholder))
  have hnobody : ∀ u, s.blocked u = false := by
    intro u
    by_cases hu : u = t
    · rw [hu]
      exact hready
    · refine Bool.eq_false_iff.mpr fun hb => ?_
      have hpc' : s.pc u ≠ .out := by
        rcases (h.blocked u).mp hb with hempty | hfull
        · rw [h.notEmpty u hempty]
          exact nofun
        · obtain ⟨byte, hpc'⟩ := h.notFull u hfull
          rw [hpc']
          exact nofun
      exact hu (Option.some.inj ((h.holder u).mpr hpc' ▸ hholder))
  have hstored : ∀ u, s.queue.notEmpty ≠ some u ∧ s.queue.notFull ≠ some u := by
    intro u
    have hu := (h.blocked u).not.mp (Bool.eq_false_iff.mp (hnobody u))
    exact ⟨fun he => hu (.inl he), fun hf => hu (.inr hf)⟩
  obtain ⟨put, got, hring, hhead, htail⟩ := h.stores
  refine ⟨{ s with queue.lock := ⟨none, ⟨s.queue.lock.semaphore.value + 1, []⟩⟩ }, ?_, ?_, rfl⟩
  · rw [Waiters.lockRelease, if_pos hholder, hup]
    rfl
  · exact
      { stores := ⟨put, got, hring, hhead, htail⟩
        waiters := rfl
        value := fun _ => by
          show s.queue.lock.semaphore.value + 1 = 1
          rw [h.taken t hholder]
          rfl
        taken := nofun
        holder := fun u => ⟨nofun, fun hne => absurd (hout u) hne⟩
        place := fun u c' hu => nomatch (hout u).symm.trans hu
        blocked := fun u => by
          show s.blocked u = true ↔ s.queue.notEmpty = some u ∨ s.queue.notFull = some u
          exact h.blocked u
        notEmpty := fun u hu => absurd hu (hstored u).1
        notFull := fun u hu => absurd hu (hstored u).2 }

/-- **Every step that can be made** has a result, if the lock is free for a call that waits. -/
theorem Waiting.step (h : Waiting s) {a : IntqAct τ} (henabled : s.enabled a = true)
    (hlock : s.lockFree a = true) : ∃ s', s.step a = some s' ∧ Waiting s' := by
  cases a with
  | call t c =>
    rw [Waiters.enabled, Bool.and_eq_true, decide_eq_true_eq] at henabled
    refine h.loop henabled.1 fun hwait => ?_
    rw [Waiters.lockFree, hwait, Bool.not_true, Bool.false_or, decide_eq_true_eq] at hlock
    by_contra hheld
    obtain ⟨u, hu⟩ := Option.ne_none_iff_exists'.mp hheld
    exact hlock (h.taken u hu)
  | resume t =>
    rw [Waiters.enabled, Bool.and_eq_true, decide_eq_true_eq, Bool.not_eq_true'] at henabled
    obtain ⟨hpc, hready⟩ := henabled
    cases hplace : s.pc t with
    | out => exact absurd hplace hpc
    | acquiring c => exact absurd hplace (h.place t c)
    | waiting c =>
      -- the lock is released, and may be taken again at once
      obtain ⟨s1, hrelease, hwaiting, hfree⟩ := h.lockRelease hpc hready
      obtain ⟨s', hs', hwaiting'⟩ := hwaiting.loop (c := c) (update_self ..) fun _ => hfree
      refine ⟨s', ?_, hwaiting'⟩
      simp only [Waiters.step, hplace, hrelease, Option.bind_some]
      rw [loop_out]
      exact hs'
  | handler c =>
    rw [Waiters.enabled, Bool.not_eq_true'] at henabled
    obtain ⟨s', hs', hwaiting, -⟩ := h.finish henabled
    exact ⟨s', hs', hwaiting⟩

/-- What the assertions of `intq.c` and `thread_unblock` rely on. -/
structure Protocol (s : Waiters τ) : Prop where
  /-- A stored thread is blocked in `wait`, for the condition it is stored for. -/
  notEmpty : ∀ t, s.queue.notEmpty = some t → s.blocked t = true ∧ s.pc t = .waiting .getc
  notFull : ∀ t, s.queue.notFull = some t → s.blocked t = true ∧ ∃ byte, s.pc t = .waiting (.putc byte)
  /-- A thread that is blocked in `wait` is stored: none has been overwritten. -/
  stored : ∀ t c, s.pc t = .waiting c → s.blocked t = true →
    s.queue.notEmpty = some t ∨ s.queue.notFull = some t
  alone : ∀ t u, s.pc t ≠ .out → s.pc u ≠ .out → t = u

omit [DecidableEq τ] in
theorem Waiting.protocol (h : Waiting s) : Protocol s where
  notEmpty t ht := ⟨(h.blocked t).mpr (.inl ht), h.notEmpty t ht⟩
  notFull t ht := ⟨(h.blocked t).mpr (.inr ht), h.notFull t ht⟩
  stored t _ _ hb := (h.blocked t).mp hb
  alone t u ht hu := Option.some.inj (((h.holder t).mpr ht).symm.trans ((h.holder u).mpr hu))

/-- **No assertion fails** in a run in which every call that has to wait finds the lock of
the queue free: each step that can be made has a result, one thread at most waits, and it
is stored as the waiter and blocked until it is unblocked. -/
theorem no_assertion_fails {buf : Arr 64 UInt8} {as : List (IntqAct τ)}
    (hrun : Run Waiters.step (fun s a => s.enabled a = true ∧ s.lockFree a = true) (Waiters.start buf) as s) :
    Protocol s ∧ ∀ a, s.enabled a = true → s.lockFree a = true → ∃ s', s.step a = some s' := by
  have h : Waiting s := by
    refine hrun.invariant (fun s a s' h hok hs => ?_) (waiting_start buf)
    obtain ⟨s1, hs1, hwaiting⟩ := Waiting.step h hok.1 hok.2
    cases Option.some.inj (hs1.symm.trans hs)
    exact hwaiting
  refine ⟨h.protocol, fun a henabled hlock => ?_⟩
  obtain ⟨s', hs', -⟩ := h.step henabled hlock
  exact ⟨s', hs'⟩

end

/-- Thread 0 waits for a byte, and gets the one that a handler puts. -/
theorem no_assertion_fails_one_reader : ∃ s : Waiters (Fin 2),
    Run Waiters.step (fun s a => s.enabled a = true ∧ s.lockFree a = true) (Waiters.start (Arr.const 0))
      [.call 0 .getc, .handler (.putc 7), .resume 0] s ∧ s.pc 0 = .out ∧ Protocol s := by
  exact Run.exists_guarded (fun s => s.pc 0 = .out) (by decide +kernel)
    fun s hrun hpc => ⟨hpc, (no_assertion_fails hrun).1⟩

/-- Two readers find the queue empty: thread 0 waits, and thread 1 sleeps in `lock_acquire`.
Two bytes arrive, of which thread 0 takes one. When thread 1 has got the lock the queue is
not empty, and the assertion in `wait` fails. -/
theorem wait_finds_queue_not_empty : ∃ s : Waiters (Fin 2),
    Run Waiters.step (fun s a => s.enabled a = true) (Waiters.start (Arr.const 0))
      [.call 0 .getc, .call 1 .getc, .handler (.putc 7), .handler (.putc 9), .resume 0] s ∧
    s.enabled (.resume 1) = true ∧ s.queue.intqEmpty = false ∧ s.step (.resume 1) = none := by
  decide +kernel

end Pintos.Devices
