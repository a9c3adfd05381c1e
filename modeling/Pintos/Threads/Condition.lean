import Pintos.Threads.Synch

/-!
# Condition variables (`threads/synch.c`)

Any number of threads use one lock and one condition. `cond_wait` puts a semaphore
of its own on `cond->waiters`, releases the lock, downs the semaphore and takes the
lock again; `cond_signal` takes the first semaphore from the list and raises it. The
list is only used with the lock held, but a thread can be switched away at any place:
a signal may come before the waiter has got to its `sema_down`, and the lock is taken
again in any order.

The semaphores and the lock are those of `Threads.Synch`, with one semaphore for
each call of `cond_wait`. The calls that joined the list, that were sent a signal and
that have returned are recorded in order; the program does not read these lists.
-/

namespace Pintos.Threads

open Lib Function List

/-! ## The machine -/

/-- A call of `cond_wait`: the thread, and which of its calls it is. Its `struct
semaphore_elem` is a local variable, so every call has a semaphore of its own. -/
abbrev Call (τ : Type) := τ × Nat

inductive Loc (τ : Type) where
  | outside
  /-- in its `n`th `cond_wait`, on the list, before `lock_release` -/
  | entered (n : Nat)
  /-- in the `lock_release` of `cond_wait` -/
  | releasing (n : Nat)
  /-- in the `sema_down` of `cond_wait` -/
  | sleeping (n : Nat)
  /-- in the `lock_acquire` of `cond_wait` -/
  | relocking (n : Nat)
  /-- in `cond_signal`, after `list_pop_front`, before `sema_up`; in `cond_broadcast` with
  what was on the list when that was called -/
  | raising (w : Call τ) (broadcast : Option (List (Call τ)))
  /-- in `cond_broadcast`, at the test of its loop -/
  | broadcasting (ws : List (Call τ))
deriving DecidableEq

structure Monitor (τ : Type) where
  /-- The lock and the semaphores of the calls. -/
  sync : State τ (Call τ) Unit
  /-- `cond->waiters` -/
  waiters : List (Call τ)
  loc : τ → Loc τ
  /-- How often each thread has called `cond_wait`. -/
  calls : τ → Nat
  /-- The calls that joined the list, that were taken from it and that returned. -/
  entered : List (Call τ)
  sent : List (Call τ)
  returned : List (Call τ)

inductive CondAct (τ : Type) where
  /-- an atomic section of the lock or of a semaphore -/
  | sync (a : Act (Call τ) Unit)
  /-- `cond_wait`, up to `list_push_back` -/
  | wait
  /-- `cond_signal`, up to `list_pop_front` -/
  | signal
  /-- `cond_broadcast` is called -/
  | broadcast
  /-- the test of its loop, and `cond_signal` up to `list_pop_front` -/
  | next

/-- A thread outside the functions of the condition uses the lock. -/
def Act.usesLock {σ κ : Type} : Act σ κ → Bool
  | .acquire _ | .tryAcquire _ | .test | .setHolder | .release _ | .releaseUp => true
  | .down _ | .tryDown _ | .up _ => false

variable {τ : Type}

section
variable [DecidableEq τ]

/-- Where thread `t` is after an atomic section that took it to `p`. -/
def Loc.after (t : τ) (p : PC (Call τ) Unit) : Loc τ → Act (Call τ) Unit → Option (Loc τ)
  | .outside, a => if a.usesLock then some .outside else none
  | .entered n, .release _ => some (.releasing n)
  | .releasing n, .releaseUp => some (.sleeping n)
  | .sleeping n, .down w => if w = (t, n) then some (.sleeping n) else none
  | .sleeping n, .test => some (if p = .outside then .relocking n else .sleeping n)
  | .relocking n, .acquire _ => some (.relocking n)
  | .relocking n, .test => some (.relocking n)
  | .relocking _, .setHolder => some .outside
  | .raising w none, .up w' => if w' = w then some .outside else none
  | .raising w (some ws), .up w' => if w' = w then some (.broadcasting ws) else none
  | _, _ => none

def Loc.returns (t : τ) : Loc τ → Act (Call τ) Unit → List (Call τ)
  | .relocking n, .setHolder => [(t, n)]
  | _, _ => []

namespace Monitor

/-- `lock_init` and `cond_init`. `sema_init` gives every call the value 0. -/
def start : Monitor τ where
  sync := State.start fun _ => 0
  waiters := []
  loc := fun _ => .outside
  calls := fun _ => 0
  entered := []
  sent := []
  returned := []

def goto (m : Monitor τ) (t : τ) (l : Loc τ) : Monitor τ := { m with loc := update m.loc t l }

/-- `list_pop_front`, and what follows is `sema_up`. -/
def pop (m : Monitor τ) (t : τ) (w : Call τ) (rest : List (Call τ))
    (broadcast : Option (List (Call τ))) : Monitor τ :=
  { m with waiters := rest, sent := m.sent ++ [w] }.goto t (.raising w broadcast)

/-- One step of thread `t`. There is no value where an assertion fails. -/
def step (m : Monitor τ) : τ × CondAct τ → Option (Monitor τ)
  | (t, .sync a) => do
    let sync ← Threads.step m.sync (t, a)
    let l ← (m.loc t).after t (sync.pc t) a
    some ({ m with sync, returned := m.returned ++ (m.loc t).returns t a }.goto t l)
  | (t, .wait) =>
    -- ASSERT (lock_held_by_current_thread (lock))
    if m.loc t = .outside ∧ m.sync.pc t = .outside ∧ m.sync.holder () = some t then
      some ({ m with
        waiters := m.waiters ++ [(t, m.calls t)]
        calls := update m.calls t (m.calls t + 1)
        entered := m.entered ++ [(t, m.calls t)] }.goto t (.entered (m.calls t)))
    else none
  | (t, .signal) =>
    -- ASSERT (lock_held_by_current_thread (lock))
    if m.loc t = .outside ∧ m.sync.pc t = .outside ∧ m.sync.holder () = some t then
      match m.waiters with
      | [] => some m
      | w :: rest => some (m.pop t w rest none)
    else none
  | (t, .broadcast) =>
    if m.loc t = .outside ∧ m.sync.pc t = .outside then
      some (m.goto t (.broadcasting m.waiters))
    else none
  | (t, .next) =>
    match m.loc t with
    | .broadcasting ws =>
      match m.waiters with
      | [] => some (m.goto t .outside)
      | w :: rest =>
        -- ASSERT (lock_held_by_current_thread (lock)) of cond_signal
        if m.sync.holder () = some t then some (m.pop t w rest (some ws)) else none
    | _ => none

end Monitor

/-! ## What a step can do -/

inductive Next (t : τ) (p : PC (Call τ) Unit) : Loc τ → Act (Call τ) Unit → Loc τ → Prop
  | lock (a : Act (Call τ) Unit) : a.usesLock = true → Next t p .outside a .outside
  | release (n : Nat) : Next t p (.entered n) (.release ()) (.releasing n)
  | releaseUp (n : Nat) : Next t p (.releasing n) .releaseUp (.sleeping n)
  | down (n : Nat) : Next t p (.sleeping n) (.down (t, n)) (.sleeping n)
  | blocked (n : Nat) : p ≠ .outside → Next t p (.sleeping n) .test (.sleeping n)
  | served (n : Nat) : p = .outside → Next t p (.sleeping n) .test (.relocking n)
  | acquire (n : Nat) : Next t p (.relocking n) (.acquire ()) (.relocking n)
  | test (n : Nat) : Next t p (.relocking n) .test (.relocking n)
  | back (n : Nat) : Next t p (.relocking n) .setHolder .outside
  | signal (w : Call τ) : Next t p (.raising w none) (.up w) .outside
  | broadcast (w : Call τ) (ws : List (Call τ)) :
      Next t p (.raising w (some ws)) (.up w) (.broadcasting ws)

theorem next_of_after {t : τ} {p : PC (Call τ) Unit} {l l' : Loc τ} {a : Act (Call τ) Unit}
    (h : l.after t p a = some l') : Next t p l a l' := by
  unfold Loc.after at h
  split at h
  · split at h
    · cases h
      exact .lock _ ‹_›
    · cases h
  · cases h
    exact .release _
  · cases h
    exact .releaseUp _
  · split at h
    · rename_i hw
      cases h
      cases hw
      exact .down _
    · cases h
  · cases h
    split
    · exact .served _ ‹_›
    · exact .blocked _ ‹_›
  · cases h
    exact .acquire _
  · cases h
    exact .test _
  · cases h
    exact .back _
  · split at h
    · rename_i hw
      cases h
      cases hw
      exact .signal _
    · cases h
  · split at h
    · rename_i hw
      cases h
      cases hw
      exact .broadcast _ _
    · cases h
  · cases h

inductive Did (m : Monitor τ) (t : τ) : CondAct τ → Monitor τ → Prop
  | sync {a : Act (Call τ) Unit} {sync : State τ (Call τ) Unit} {l : Loc τ} :
      Effect m.sync t a sync → Next t (sync.pc t) (m.loc t) a l →
      Did m t (.sync a) ({ m with sync, returned := m.returned ++ (m.loc t).returns t a }.goto t l)
  | wait : m.loc t = .outside → m.sync.pc t = .outside → m.sync.holder () = some t →
      Did m t .wait ({ m with
        waiters := m.waiters ++ [(t, m.calls t)]
        calls := update m.calls t (m.calls t + 1)
        entered := m.entered ++ [(t, m.calls t)] }.goto t (.entered (m.calls t)))
  | signalNone : m.loc t = .outside → m.waiters = [] → Did m t .signal m
  | signal {w : Call τ} {rest : List (Call τ)} : m.loc t = .outside → m.sync.pc t = .outside →
      m.sync.holder () = some t → m.waiters = w :: rest → Did m t .signal (m.pop t w rest none)
  | broadcast : m.loc t = .outside → m.sync.pc t = .outside →
      Did m t .broadcast (m.goto t (.broadcasting m.waiters))
  | next {w : Call τ} {rest ws : List (Call τ)} : m.loc t = .broadcasting ws →
      m.sync.holder () = some t → m.waiters = w :: rest → Did m t .next (m.pop t w rest (some ws))
  | done {ws : List (Call τ)} : m.loc t = .broadcasting ws → m.waiters = [] →
      Did m t .next (m.goto t .outside)

theorem did_of_step {m m' : Monitor τ} {t : τ} {a : CondAct τ} (h : m.step (t, a) = some m') :
    Did m t a m' := by
  cases a with
  | sync a =>
    obtain ⟨sync, hsync, h⟩ := Option.bind_eq_some_iff.mp h
    obtain ⟨l, hl, h⟩ := Option.bind_eq_some_iff.mp h
    cases h
    exact .sync (effect_of_step hsync) (next_of_after hl)
  | wait =>
    simp only [Monitor.step] at h
    split at h
    · rename_i hok
      cases h
      exact .wait hok.1 hok.2.1 hok.2.2
    · cases h
  | signal =>
    simp only [Monitor.step] at h
    split at h
    · rename_i hok
      split at h
      · cases h
        exact .signalNone hok.1 ‹_›
      · cases h
        exact .signal hok.1 hok.2.1 hok.2.2 ‹_›
    · cases h
  | broadcast =>
    simp only [Monitor.step] at h
    split at h
    · rename_i hok
      cases h
      exact .broadcast hok.1 hok.2
    · cases h
  | next =>
    simp only [Monitor.step] at h
    split at h
    · rename_i hloc
      split at h
      · cases h
        exact .done hloc ‹_›
      · split at h
        · cases h
          exact .next hloc ‹_› ‹_›
        · cases h
    · cases h

/-! ## The lock and the semaphores under the condition -/

variable {s s' : State τ (Call τ) Unit} {init : Call τ ⊕ Unit → UInt32} {t u : τ}
  {a : Act (Call τ) Unit}

theorem Effect.others (he : Effect s t a s') (hsema : SemaInv init s) (hu : u ≠ t) :
    (s'.pc u = s.pc u ∨ ∃ x, s.pc u = .waiting x ∧ s'.pc u = .woken x) ∧
      s'.held u = s.held u := by
  have hgoto : ∀ p, update s.pc t p u = s.pc u := fun p => update_of_ne hu ..
  have hheld : ∀ f, update s.held t f u = s.held u := fun f => update_of_ne hu ..
  cases he with
  | test x _ =>
    by_cases hv : (s.sema x).value = 0
    · rw [testDown_zero hv]
      exact ⟨.inl (hgoto _), rfl⟩
    · rw [testDown_pos hv]
      exact ⟨.inl (hgoto _), rfl⟩
  | tryDown x _ => exact ⟨.inl rfl, rfl⟩
  | tryDownFail x => exact ⟨.inl rfl, rfl⟩
  | tryAcquireFail l => exact ⟨.inl rfl, rfl⟩
  | setHolder l _ => exact ⟨.inl (hgoto _), hheld _⟩
  | up x => exact ⟨raise_pc hsema _ u, congrFun (raise_held s _).1 u⟩
  | release l _ _ => exact ⟨.inl (hgoto _), hheld _⟩
  | releaseUp l hpc =>
    have hsema' : SemaInv init (s.goto t .outside) :=
      hsema.goto (fun y => by simp [hpc]) (fun y => by simp)
    have hraise := raise_pc hsema' (.inr l) u
    rw [show (s.goto t .outside).pc u = s.pc u from hgoto _] at hraise
    exact ⟨hraise, congrFun (raise_held _ _).1 u⟩
  | _ => exact ⟨.inl (hgoto _), rfl⟩

def SameCounts (s s' : State τ (Call τ) Unit) : Prop :=
  ∀ w, (s'.sema (.inl w)).value = (s.sema (.inl w)).value ∧ s'.ups (.inl w) = s.ups (.inl w) ∧
    s'.downs (.inl w) = s.downs (.inl w)

theorem sameCounts_take (s : State τ (Call τ) Unit) (sema : Semaphore τ) (t : τ)
    (p : PC (Call τ) Unit) :
    SameCounts s (((s.setSema (.inr ()) sema).countDown (.inr ())).goto t p) := by
  intro w
  refine ⟨congrArg Semaphore.value (?_ : update s.sema (.inr ()) sema (.inl w) = _), rfl,
    (?_ : update s.downs (.inr ()) (s.downs (.inr ()) + 1) (.inl w) = _)⟩
  · exact update_of_ne (by simp) ..
  · exact update_of_ne (by simp) ..

theorem sameCounts_raise (s : State τ (Call τ) Unit) : SameCounts s (s.raise (.inr ())) := by
  intro w
  have hups : update s.ups (.inr ()) (s.ups (.inr ()) + 1) (.inl w) = s.ups (.inl w) :=
    update_of_ne (by simp) ..
  refine ⟨by rw [raise_value, if_neg (by simp)], ?_, ?_⟩
  · unfold State.raise semaUp
    cases (s.sema (.inr ())).waiters <;> exact hups
  · unfold State.raise semaUp
    cases (s.sema (.inr ())).waiters <;> rfl

theorem sameCounts_testDown (t : τ) {x : Call τ ⊕ Unit}
    (h : x = .inr () ∨ (s.sema x).value = 0) : SameCounts s (s.testDown t x) := by
  intro w
  by_cases hv : (s.sema x).value = 0
  · rw [testDown_zero hv]
    exact ⟨value_update_waiters .., rfl, rfl⟩
  · rw [testDown_pos hv, h.resolve_right hv]
    exact sameCounts_take s _ t _ w

theorem Effect.sameCounts (he : Effect s t a s') (ha : a.usesLock = true)
    (hpc : ∀ w, s.pc t ≠ .testing (.inl w) ∧ s.pc t ≠ .woken (.inl w)) : SameCounts s s' := by
  cases he with
  | down x _ => cases ha
  | test x hx =>
    refine sameCounts_testDown t (.inl ?_)
    cases x with
    | inl w => exact absurd hx (not_or.mpr (hpc w))
    | inr l => rfl
  | tryDown x _ => cases ha
  | tryDownFail x => cases ha
  | tryAcquire l _ _ _ => exact sameCounts_take s _ t _
  | up x => cases ha
  | releaseUp l _ => exact sameCounts_raise (s.goto t .outside)
  | _ => exact fun _ => ⟨rfl, rfl, rfl⟩

end

/-- The place of thread `t` in the functions of the condition, in those of the lock and the
semaphores, and whether it holds the lock. -/
def Loc.Fits (t : τ) (p : PC (Call τ) Unit) (held : Bool) : Loc τ → Prop
  | .outside => ∀ w, p ≠ .testing (.inl w) ∧ p ≠ .waiting (.inl w) ∧ p ≠ .woken (.inl w)
  | .entered _ | .raising _ _ | .broadcasting _ => p = .outside ∧ held = true
  | .releasing _ => p = .releasing ()
  | .sleeping n => p = .outside ∨ p = .testing (.inl (t, n)) ∨ p = .waiting (.inl (t, n)) ∨
      p = .woken (.inl (t, n))
  | .relocking _ => p = .outside ∨ p = .testing (.inr ()) ∨ p = .waiting (.inr ()) ∨
      p = .woken (.inr ()) ∨ p = .acquired ()

section
variable {s s' : State τ (Call τ) Unit} {init : Call τ ⊕ Unit → UInt32} {t u : τ}
  {a : Act (Call τ) Unit} {l l' : Loc τ} {x : Call τ ⊕ Unit} {held : Bool}

theorem Loc.Fits.wake (h : l.Fits t (.waiting x) held) : l.Fits t (.woken x) held := by
  cases l with
  | outside =>
    intro w
    have := h w
    simp only [ne_eq, PC.waiting.injEq, PC.woken.injEq] at this ⊢
    exact ⟨by simp, by simp, this.2.1⟩
  | releasing n => cases h
  | sleeping n =>
    rcases h with h | h | h | h <;> cases h
    exact .inr (.inr (.inr rfl))
  | relocking n =>
    rcases h with h | h | h | h | h <;> cases h
    exact .inr (.inr (.inr (.inl rfl)))
  | _ => cases h.1

theorem Loc.Fits.sleeping_at {n : Nat} {p : PC (Call τ) Unit} (h : (Loc.sleeping n).Fits t p held)
    (hx : p = .testing x ∨ p = .woken x) : x = .inl (t, n) := by
  rcases h with h | h | h | h <;> rcases hx with hx | hx <;> rw [h] at hx <;> cases hx <;> rfl

theorem fits_outside {p : PC (Call τ) Unit} (hp : p = .outside ∨ (∃ l, p = .testing (.inr l)) ∨
    (∃ l, p = .waiting (.inr l)) ∨ (∃ l, p = .acquired l) ∨ ∃ l, p = .releasing l) :
    Loc.outside.Fits t p held := by
  intro w
  rcases hp with rfl | ⟨l, rfl⟩ | ⟨l, rfl⟩ | ⟨l, rfl⟩ | ⟨l, rfl⟩ <;> simp

variable [DecidableEq τ]

theorem testDown_pc (s : State τ (Call τ) Unit) (t : τ) (x : Call τ ⊕ Unit) :
    (s.testDown t x).pc t = .waiting x ∨ (s.testDown t x).pc t = State.afterDown x := by
  by_cases hv : (s.sema x).value = 0
  · rw [testDown_zero hv]
    exact .inl (update_self ..)
  · rw [testDown_pos hv]
    exact .inr (update_self ..)

theorem raise_pc_outside (hsema : SemaInv init s) (hpc : s.pc t = .outside) :
    (s.raise x).pc t = .outside := by
  rcases raise_pc hsema x t with h | ⟨y, hy, -⟩
  · rw [h, hpc]
  · rw [hpc] at hy
    cases hy

theorem releaseUp_pc {k : Unit} (hsema : SemaInv init s) (hpc : s.pc t = .releasing k) :
    ((s.goto t .outside).raise x).pc t = .outside :=
  raise_pc_outside (hsema.goto (fun y => by simp [hpc]) (fun y => by simp)) (update_self ..)

/-- **The places fit after an atomic section**, for the thread that executes it. -/
theorem Loc.Fits.sync (h : l.Fits t (s.pc t) (s.held t ())) (he : Effect s t a s')
    (hn : Next t (s'.pc t) l a l') (hsema : SemaInv init s) :
    l'.Fits t (s'.pc t) (s'.held t ()) := by
  cases hn with
  | lock a ha =>
    cases he with
    | acquire k _ _ => exact fits_outside (.inr (.inl ⟨k, update_self ..⟩))
    | test x hx =>
      cases x with
      | inl w =>
        have hw := h w
        exact absurd hx (not_or.mpr ⟨hw.1, hw.2.2⟩)
      | inr k =>
        rcases testDown_pc s t (.inr k) with hp | hp
        · exact fits_outside (.inr (.inr (.inl ⟨k, hp⟩)))
        · exact fits_outside (.inr (.inr (.inr (.inl ⟨k, hp⟩))))
    | tryAcquire k _ _ _ =>
      exact fits_outside (.inr (.inr (.inr (.inl ⟨k, update_self ..⟩))))
    | tryAcquireFail k => exact h
    | setHolder k _ => exact fits_outside (.inl (update_self ..))
    | release k _ _ =>
      exact fits_outside (.inr (.inr (.inr (.inr ⟨k, update_self ..⟩))))
    | releaseUp k hpc => exact fits_outside (.inl (releaseUp_pc hsema hpc))
    | _ => cases ha
  | release n =>
    cases he
    exact update_self ..
  | releaseUp n =>
    cases he with
    | releaseUp k hpc => exact .inl (releaseUp_pc hsema hpc)
  | blocked n hp =>
    cases he with
    | test x hx =>
      -- the thread is at the semaphore of its call
      rw [h.sleeping_at hx] at hp ⊢
      rcases testDown_pc s t (.inl (t, n)) with hp' | hp'
      · exact .inr (.inr (.inl hp'))
      · exact absurd hp' hp
  | served n hp => exact .inl hp
  | test n =>
    cases he with
    | test x hx =>
      have hx' : x = .inr () := by
        rcases h with h | h | h | h | h <;> rcases hx with hx | hx <;> rw [h] at hx <;> cases hx <;>
          rfl
      rw [hx']
      rcases testDown_pc s t (.inr ()) with hp' | hp'
      · exact .inr (.inr (.inl hp'))
      · exact .inr (.inr (.inr (.inr hp')))
  | back n =>
    cases he
    exact fits_outside (.inl (update_self ..))
  | signal w =>
    cases he
    exact fits_outside (.inl (raise_pc_outside hsema h.1))
  | broadcast w ws =>
    cases he
    refine ⟨raise_pc_outside hsema h.1, ?_⟩
    rw [(raise_held s (.inl w)).1]
    exact h.2
  | _ =>
    cases he
    exact .inr (.inl (update_self ..))

theorem Loc.Fits.other (h : l.Fits u (s.pc u) (s.held u ())) (he : Effect s t a s')
    (hsema : SemaInv init s) (hu : u ≠ t) : l.Fits u (s'.pc u) (s'.held u ()) := by
  obtain ⟨hpc | ⟨x, hx, hx'⟩, hheld⟩ := he.others hsema hu
  · rw [hpc, hheld]
    exact h
  · rw [hx] at h
    rw [hx', hheld]
    exact h.wake

end

/-! ## Signals -/

def Loc.call? : Loc τ → Option Nat
  | .entered n | .releasing n | .sleeping n | .relocking n => some n
  | _ => none

def Loc.unserved? : Loc τ → Option Nat
  | .entered n | .releasing n | .sleeping n => some n
  | _ => none

def Loc.raises? : Loc τ → Option (Call τ)
  | .raising w _ => some w
  | _ => none

def Loc.broadcast? : Loc τ → Option (List (Call τ))
  | .raising _ ws => ws
  | .broadcasting ws => some ws
  | _ => none

structure CallOk (m : Monitor τ) (t : τ) (l : Loc τ) : Prop where
  current : ∀ n, l.call? = some n → n + 1 = m.calls t
  raising : ∀ w, l.raises? = some w → w ∈ m.sent ∧ m.sync.ups (.inl w) = 0
  unserved : ∀ n, l.unserved? = some n → m.sync.downs (.inl (t, n)) = 0
  served : ∀ n, n < m.calls t → l.unserved? ≠ some n → m.sync.downs (.inl (t, n)) = 1
  returned : ∀ n, (t, n) ∈ m.returned ↔ n < m.calls t ∧ l.call? ≠ some n
  /-- Nothing joins the list during a broadcast. -/
  shrinking : ∀ ws, l.broadcast? = some ws → m.waiters <:+ ws ∧ ∀ w ∈ ws, w ∈ m.entered

/-- What holds of the calls and their signals. -/
structure CallInv (m : Monitor τ) : Prop where
  threads : ∀ t, CallOk m t (m.loc t)
  /-- Signals go to the calls in the order in which they joined the list. -/
  fifo : m.entered = m.sent ++ m.waiters
  nodup : m.entered.Nodup
  known : ∀ t n, (t, n) ∈ m.entered ↔ n < m.calls t
  /-- No unit is lost. -/
  balance : ∀ w, (m.sync.sema (.inl w)).value.toNat + m.sync.downs (.inl w) = m.sync.ups (.inl w)
  unsent : ∀ w, w ∉ m.sent → m.sync.ups (.inl w) = 0
  raised : ∀ w ∈ m.sent, (∀ t, (m.loc t).raises? ≠ some w) → m.sync.ups (.inl w) = 1
  returned_nodup : m.returned.Nodup

section
variable {m m' : Monitor τ} {t u : τ} {l l' : Loc τ} {w : Call τ} {n : Nat}

theorem CallOk.frame (h : CallOk m u l) (hcalls : m'.calls u = m.calls u)
    (hentered : ∀ w ∈ m.entered, w ∈ m'.entered) (hsent : ∀ w ∈ m.sent, w ∈ m'.sent)
    (hups : ∀ w, l.raises? = some w → m'.sync.ups (.inl w) = m.sync.ups (.inl w))
    (hdowns : ∀ n, m'.sync.downs (.inl (u, n)) = m.sync.downs (.inl (u, n)))
    (hreturned : ∀ n, (u, n) ∈ m'.returned ↔ (u, n) ∈ m.returned)
    (hshrink : ∀ ws, l.broadcast? = some ws → m'.waiters <:+ m.waiters) : CallOk m' u l := by
  refine ⟨fun n hn => ?_, fun w hw => ?_, fun n hn => ?_, fun n => ?_, fun n => ?_, fun ws hws => ?_⟩
  · rw [hcalls]
    exact h.current n hn
  · rw [hups w hw]
    exact ⟨hsent w (h.raising w hw).1, (h.raising w hw).2⟩
  · rw [hdowns]
    exact h.unserved n hn
  · rw [hcalls, hdowns]
    exact h.served n
  · rw [hreturned, hcalls]
    exact h.returned n
  · obtain ⟨hsuffix, hmem⟩ := h.shrinking ws hws
    exact ⟨(hshrink ws hws).trans hsuffix, fun w hw => hentered w (hmem w hw)⟩

theorem CallOk.move (h : CallOk m t l) (hcall : l'.call? = l.call?)
    (hunserved : l'.unserved? = l.unserved?) (hraises : l'.raises? = l.raises?)
    (hbroadcast : ∀ ws, l'.broadcast? = some ws → m.waiters <:+ ws ∧ ∀ w ∈ ws, w ∈ m.entered) :
    CallOk m t l' := by
  refine ⟨?_, ?_, ?_, ?_, ?_, hbroadcast⟩
  · rw [hcall]
    exact h.current
  · rw [hraises]
    exact h.raising
  · rw [hunserved]
    exact h.unserved
  · rw [hunserved]
    exact h.served
  · rw [hcall]
    exact h.returned

/-- A call that has not joined the list has no history. -/
theorem CallInv.fresh (h : CallInv m) (hw : w ∉ m.entered) :
    m.sync.ups (.inl w) = 0 ∧ m.sync.downs (.inl w) = 0 := by
  have hups := h.unsent w fun hs => hw (by rw [h.fifo]; exact mem_append_left _ hs)
  have := h.balance w
  omega

theorem CallInv.not_sent (h : CallInv m) (hw : w ∈ m.waiters) : w ∉ m.sent := by
  have hnodup := h.nodup
  rw [h.fifo, nodup_append] at hnodup
  exact fun hs => hnodup.2.2 w hs w hw rfl

theorem CallInv.counts (h : CallInv m) {sync : State τ (Call τ) Unit}
    (hcounts : SameCounts m.sync sync) : CallInv { m with sync } := by
  refine ⟨fun u => ?_, h.fifo, h.nodup, h.known, fun w => ?_, fun w hw => ?_, fun w hw hnone => ?_,
    h.returned_nodup⟩
  · exact (h.threads u).frame rfl (fun _ hw => hw) (fun _ hw => hw) (fun w _ => (hcounts w).2.1)
      (fun n => (hcounts _).2.2) (fun _ => Iff.rfl) fun _ _ => suffix_rfl
  · show (sync.sema _).value.toNat + sync.downs _ = sync.ups _
    rw [(hcounts w).1, (hcounts w).2.1, (hcounts w).2.2]
    exact h.balance w
  · exact (hcounts w).2.1.trans (h.unsent w hw)
  · exact (hcounts w).2.1.trans (h.raised w hw hnone)

variable [DecidableEq τ]

theorem goto_loc_self : (m.goto t l).loc t = l := update_self ..

theorem forall_goto {P : τ → Loc τ → Prop} (ht : P t l) (h : ∀ u ≠ t, P u (m.loc u)) :
    ∀ u, P u ((m.goto t l).loc u) :=
  (Function.forall_update_iff m.loc P).mpr ⟨ht, h⟩

theorem raises_of_goto (hl : (m.loc t).raises? ≠ some w)
    (h : ∀ u, ((m.goto t l).loc u).raises? ≠ some w) : ∀ u, (m.loc u).raises? ≠ some w := by
  intro u
  by_cases hu : u = t
  · rw [hu]
    exact hl
  · have hother := h u
    rwa [show (m.goto t l).loc u = m.loc u from update_of_ne hu ..] at hother

/-- **A step that only moves thread `t`**, within a call, or into or out of a broadcast. -/
theorem CallInv.neutral (h : CallInv m) (hparts : l.call? = (m.loc t).call? ∧
      l.unserved? = (m.loc t).unserved? ∧ l.raises? = (m.loc t).raises?)
    (hbroadcast : ∀ ws, l.broadcast? = some ws → m.waiters <:+ ws ∧ ∀ w ∈ ws, w ∈ m.entered) :
    CallInv (m.goto t l) := by
  have hframe : ∀ {u l'}, CallOk m u l' → CallOk (m.goto t l) u l' := fun hok => { hok with }
  refine ⟨forall_goto (P := CallOk _) ?_ fun u _ => hframe (h.threads u), h.fifo, h.nodup, h.known,
    h.balance, h.unsent, fun w hw hnone => h.raised w hw (raises_of_goto ?_ hnone),
    h.returned_nodup⟩
  · exact hframe ((h.threads t).move hparts.1 hparts.2.1 hparts.2.2 hbroadcast)
  · have hself := hnone t
    rwa [goto_loc_self, hparts.2.2] at hself

/-- **`cond_wait` joins the list**, while no other thread is in a broadcast. -/
theorem CallInv.wait (h : CallInv m) (hloc : m.loc t = .outside)
    (hquiet : ∀ u ≠ t, (m.loc u).broadcast? = none) :
    CallInv ({ m with
      waiters := m.waiters ++ [(t, m.calls t)]
      calls := update m.calls t (m.calls t + 1)
      entered := m.entered ++ [(t, m.calls t)] }.goto t (.entered (m.calls t))) := by
  have hnew : (t, m.calls t) ∉ m.entered := fun hmem => Nat.lt_irrefl _ ((h.known _ _).mp hmem)
  have hok := h.threads t
  rw [hloc] at hok
  have hcalls : update m.calls t (m.calls t + 1) t = m.calls t + 1 :=
    update_self ..
  refine ⟨forall_goto (P := CallOk _) ⟨fun k hk => ?_, nofun, fun k hk => ?_,
      fun k hk hne => ?_, fun k => ?_, nofun⟩ fun u hu => ?_, ?_, ?_,
    fun u k => ?_, h.balance, h.unsent, fun w hw hnone => ?_, h.returned_nodup⟩
  -- the new call of `t`
  · show k + 1 = update m.calls t _ t
    rw [hcalls, Option.some.inj hk]
  · rw [← Option.some.inj hk]
    exact (h.fresh hnew).2
  · change k < update m.calls t _ t at hk
    rw [hcalls] at hk
    have hkn : m.calls t ≠ k := fun he => hne (congrArg some he)
    exact hok.served k (by omega) nofun
  · show (t, k) ∈ m.returned ↔ k < update m.calls t _ t ∧ some (m.calls t) ≠ some k
    rw [hok.returned, hcalls]
    show k < m.calls t ∧ none ≠ some k ↔ _
    simp only [ne_eq, reduceCtorEq, not_false_eq_true, and_true, Option.some.injEq]
    omega
  -- the other threads
  · refine (h.threads u).frame (update_of_ne hu ..)
      (fun _ hw => mem_append_left _ hw) (fun _ hw => hw) (fun _ _ => rfl) (fun _ => rfl) (fun _ => Iff.rfl) fun ws hws => ?_
    rw [hquiet u hu] at hws
    cases hws
  · show m.entered ++ _ = m.sent ++ (m.waiters ++ _)
    rw [h.fifo, append_assoc]
  · refine nodup_append.mpr ⟨h.nodup, nodup_singleton _, fun x hx y hy hxy => ?_⟩
    rw [mem_singleton.mp hy] at hxy
    exact hnew (hxy ▸ hx)
  · show (u, k) ∈ m.entered ++ [(t, m.calls t)] ↔ k < update m.calls t _ u
    rw [mem_append, mem_singleton, h.known, Prod.mk.injEq]
    by_cases hu : u = t
    · rw [hu, hcalls, eq_self, true_and]
      exact Nat.lt_succ_iff_lt_or_eq.symm
    · rw [update_of_ne hu]
      exact or_iff_left fun he => hu he.1
  · exact h.raised w hw (raises_of_goto (by rw [hloc]; exact nofun) hnone)

theorem CallInv.serve (h : CallInv m) (hloc : m.loc t = .sleeping n)
    (hv : (m.sync.sema (.inl (t, n))).value ≠ 0) :
    CallInv ({ m with sync := m.sync.testDown t (.inl (t, n)) }.goto t (.relocking n)) := by
  rw [testDown_pos hv]
  have hok := h.threads t
  rw [hloc] at hok
  have hzero : m.sync.downs (.inl (t, n)) = 0 := hok.unserved n rfl
  have hdowns : ∀ w, w ≠ (t, n) → update m.sync.downs (.inl (t, n))
      (m.sync.downs (.inl (t, n)) + 1) (.inl w) = m.sync.downs (.inl w) := fun w hw =>
    update_of_ne (by simpa using hw) ..
  refine ⟨forall_goto (P := CallOk _) ⟨hok.current, nofun,
      nofun, fun k hk _ => ?_, hok.returned, nofun⟩
      fun u hu => ?_, h.fifo, h.nodup, h.known, fun w => ?_, h.unsent, fun w hw hnone => ?_,
    h.returned_nodup⟩
  · show update m.sync.downs (.inl (t, n)) (m.sync.downs (.inl (t, n)) + 1)
      (.inl (t, k)) = 1
    by_cases hkn : k = n
    · rw [hkn, update_self, hzero]
    · rw [hdowns _ (by simp [hkn])]
      exact hok.served k hk fun he => hkn (Option.some.inj he).symm
  · exact (h.threads u).frame rfl (fun _ hw => hw) (fun _ hw => hw) (fun _ _ => rfl)
      (fun k => hdowns _ (by simp [hu])) (fun _ => Iff.rfl) fun _ _ => suffix_rfl
  · show (update m.sync.sema (.inl (t, n)) { m.sync.sema (.inl (t, n)) with
      value := (m.sync.sema (.inl (t, n))).value - 1 } (.inl w)).value.toNat +
        update m.sync.downs (.inl (t, n)) (m.sync.downs (.inl (t, n)) + 1) (.inl w) = _
    by_cases hw : w = (t, n)
    · have hbalance := h.balance (t, n)
      have hsub := toNat_sub_one hv
      rw [hw, update_self, update_self]
      show ((m.sync.sema (.inl (t, n))).value - 1).toNat + _ = m.sync.ups _
      omega
    · rw [update_of_ne (by simpa using hw), hdowns w hw]
      exact h.balance w
  · exact h.raised w hw (raises_of_goto (by rw [hloc]; exact nofun) hnone)

theorem CallInv.back (h : CallInv m) (hloc : m.loc t = .relocking n) :
    CallInv ({ m with returned := m.returned ++ [(t, n)] }.goto t .outside) := by
  have hok := h.threads t
  rw [hloc] at hok
  have hn := hok.current n rfl
  refine ⟨forall_goto (P := CallOk _) ⟨nofun, nofun, nofun,
      fun k hk _ => hok.served k hk nofun, fun k => ?_, nofun⟩ fun u hu => ?_, h.fifo, h.nodup,
    h.known, h.balance, h.unsent, fun w hw hnone => ?_, ?_⟩
  · show (t, k) ∈ m.returned ++ [(t, n)] ↔ k < m.calls t ∧ none ≠ some k
    rw [mem_append, mem_singleton, hok.returned, Prod.mk.injEq]
    show k < m.calls t ∧ some n ≠ some k ∨ t = t ∧ k = n ↔ _
    simp only [ne_eq, reduceCtorEq, not_false_eq_true, and_true, true_and, Option.some.injEq]
    omega
  · refine (h.threads u).frame rfl (fun _ hw => hw) (fun _ hw => hw) (fun _ _ => rfl) (fun _ => rfl)
      (fun k => ?_) fun _ _ => suffix_rfl
    show (u, k) ∈ m.returned ++ [(t, n)] ↔ _
    rw [mem_append, mem_singleton, Prod.mk.injEq]
    exact or_iff_left fun he => hu he.1
  · exact h.raised w hw (raises_of_goto (by rw [hloc]; nofun) hnone)
  · refine nodup_append.mpr
      ⟨h.returned_nodup, nodup_singleton _, fun x hx y hy hxy => ?_⟩
    rw [hxy, mem_singleton.mp hy] at hx
    exact ((hok.returned n).mp hx).2 rfl

theorem CallInv.pop (h : CallInv m) {rest : List (Call τ)} {b : Option (List (Call τ))}
    (hwaiters : m.waiters = w :: rest)
    (hparts : (m.loc t).call? = none ∧ (m.loc t).unserved? = none ∧ (m.loc t).raises? = none)
    (hb : ∀ ws, b = some ws → m.waiters <:+ ws ∧ ∀ w ∈ ws, w ∈ m.entered) :
    CallInv (m.pop t w rest b) := by
  obtain ⟨hcall, hunserved, hraises⟩ := hparts
  have hok := h.threads t
  have hmem : w ∈ m.waiters := by
    rw [hwaiters]
    exact mem_cons_self
  have hsuffix : rest <:+ m.waiters := by
    rw [hwaiters]
    exact suffix_cons w rest
  refine ⟨forall_goto (P := CallOk _) ⟨nofun, fun w' hw' => ?_,
      nofun, fun k hk _ => ?_, fun k => ?_, fun ws hws => ?_⟩ fun u _ => ?_,
    ?_, h.nodup, h.known, h.balance, fun w' hw' => ?_, fun w' hw' hnone => ?_, h.returned_nodup⟩
  · rw [← Option.some.inj hw']
    exact ⟨mem_append_right _ (mem_singleton_self w), h.unsent w (h.not_sent hmem)⟩
  · exact hok.served k hk (by rw [hunserved]; exact nofun)
  · refine (hok.returned k).trans ?_
    rw [hcall]
    rfl
  · exact ⟨hsuffix.trans (hb ws hws).1, (hb ws hws).2⟩
  · exact (h.threads u).frame rfl (fun _ hw => hw) (fun _ hw => mem_append_left _ hw)
      (fun _ _ => rfl) (fun _ => rfl) (fun _ => Iff.rfl) fun _ _ => hsuffix
  · show m.entered = (m.sent ++ [w]) ++ rest
    rw [h.fifo, hwaiters, append_assoc]
    rfl
  · exact h.unsent w' fun hs => hw' (mem_append_left _ hs)
  · -- the call that was taken is about to be raised
    have hne : w' ≠ w := by
      have hself := hnone t
      rw [Monitor.pop, goto_loc_self] at hself
      exact fun he => hself (congrArg some he.symm)
    have hw' := (mem_append.mp hw').resolve_right fun he => hne (mem_singleton.mp he)
    refine h.raised w' hw' (raises_of_goto ?_ hnone)
    show (m.loc t).raises? ≠ some w'
    rw [hraises]
    exact nofun

theorem raise_counts (s : State τ (Call τ) Unit) (x : Call τ ⊕ Unit) :
    (s.raise x).ups = update s.ups x (s.ups x + 1) ∧ (s.raise x).downs = s.downs := by
  unfold State.raise semaUp
  cases (s.sema x).waiters <;> exact ⟨rfl, rfl⟩

/-- **The semaphore of the call is raised**, while no other thread sends a signal. -/
theorem CallInv.raise (h : CallInv m) (hraises : (m.loc t).raises? = some w)
    (hcall : (m.loc t).call? = none ∧ l.call? = none)
    (hunserved : (m.loc t).unserved? = none ∧ l.unserved? = none) (hl : l.raises? = none)
    (hbroadcast : l.broadcast? = (m.loc t).broadcast?)
    (hquiet : ∀ u ≠ t, (m.loc u).raises? = none) :
    CallInv ({ m with sync := m.sync.raise (.inl w) }.goto t l) := by
  obtain ⟨hups, hdowns⟩ := raise_counts m.sync (.inl w)
  have hok := h.threads t
  obtain ⟨hw, hzero⟩ := hok.raising w hraises
  have hups' : ∀ w' ≠ w, (m.sync.raise (.inl w)).ups (.inl w') = m.sync.ups (.inl w') := by
    intro w' hw'
    rw [hups]
    exact update_of_ne (by simpa using hw') ..
  refine ⟨forall_goto (P := CallOk _) ⟨fun k hk => ?_, fun w' hw' => ?_, fun k hk => ?_,
      fun k hk _ => ?_, fun k => ?_, fun ws hws => ?_⟩ fun u hu => ?_, h.fifo, h.nodup, h.known,
    fun w' => ?_, fun w' hw' => ?_, fun w' hw' hnone => ?_, h.returned_nodup⟩
  · rw [hcall.2] at hk
    cases hk
  · rw [hl] at hw'
    cases hw'
  · rw [hunserved.2] at hk
    cases hk
  · show (m.sync.raise _).downs _ = 1
    rw [hdowns]
    exact hok.served k hk (by rw [hunserved.1]; exact nofun)
  · rw [hcall.2, ← hcall.1]
    exact hok.returned k
  · exact hok.shrinking ws (hbroadcast ▸ hws)
  · refine (h.threads u).frame rfl (fun _ hw => hw) (fun _ hw => hw) (fun w' hw' => ?_)
      (fun k => ?_) (fun _ => Iff.rfl) fun _ _ => suffix_rfl
    · rw [hquiet u hu] at hw'
      cases hw'
    · exact congrFun hdowns _
  · show ((m.sync.raise _).sema _).value.toNat + (m.sync.raise _).downs _ = _
    have hbalance := h.balance w'
    rw [raise_value, hdowns]
    by_cases he : w' = w
    · -- the first unit of this semaphore
      rw [he] at hbalance ⊢
      have hval : (m.sync.sema (.inl w)).value.toNat = 0 := by omega
      have hone : ((m.sync.sema (.inl w)).value + 1).toNat = 1 := by
        rw [UInt32.toNat_add, hval]
        rfl
      rw [if_pos rfl, hone]
      show _ = (m.sync.raise (.inl w)).ups (.inl w)
      rw [hups, update_self]
      omega
    · rw [if_neg (by simpa using he)]
      exact hbalance.trans (hups' w' he).symm
  · exact (hups' w' fun he => hw' (he ▸ hw)).trans (h.unsent w' hw')
  · show (m.sync.raise (.inl w)).ups (.inl w') = 1
    by_cases he : w' = w
    · rw [he, hups, update_self, hzero]
    · rw [hups' w' he]
      refine h.raised w' hw' (raises_of_goto ?_ hnone)
      show (m.loc t).raises? ≠ some w'
      rw [hraises]
      exact fun hc => he (Option.some.inj hc).symm

end

/-! ## Steps -/

/-- What holds of the lock, the semaphores and the calls. -/
structure Monitor.Inv (m : Monitor τ) : Prop where
  sema : SemaInv (initialValue fun _ => 0) m.sync
  lock : LockInv m.sync
  fits : ∀ t, (m.loc t).Fits t (m.sync.pc t) (m.sync.held t ())
  calls : CallInv m

def LockHeld (m : Monitor τ) (a : τ × CondAct τ) : Prop :=
  match a.2 with
  | .broadcast => m.sync.holder () = some a.1
  | _ => True

instance [DecidableEq τ] (m : Monitor τ) : (a : τ × CondAct τ) → Decidable (LockHeld m a)
  | (t, .broadcast) => inferInstanceAs (Decidable (m.sync.holder () = some t))
  | (_, .sync _) | (_, .wait) | (_, .signal) | (_, .next) => .isTrue trivial

section
variable {m m' : Monitor τ} {t u : τ} {a : CondAct τ}

theorem Monitor.Inv.alone (h : m.Inv) (ht : m.sync.held t () = true) (hu : u ≠ t) :
    (m.loc u).raises? = none ∧ (m.loc u).broadcast? = none := by
  have hfits := h.fits u
  have hheld : m.sync.held u () ≠ true := fun hh =>
    hu (h.lock.unique () u t (.inr hh) (.inr ht))
  generalize m.loc u = l at hfits ⊢
  cases l with
  | raising w b => exact absurd hfits.2 hheld
  | broadcasting ws => exact absurd hfits.2 hheld
  | _ => exact ⟨rfl, rfl⟩

theorem Monitor.Inv.not_waiting (h : m.Inv) {n : Nat}
    (hv : (m.sync.sema (.inl (t, n))).value.toNat = 1) :
    m.sync.pc t ≠ .waiting (.inl (t, n)) := by
  intro hpc
  have hmem := ((h.sema (.inl (t, n))).waiting t).mpr hpc
  obtain ⟨woken, -, hwoken, hlen⟩ := (h.sema (.inl (t, n))).awake (ne_nil_of_mem hmem)
  rw [hv] at hlen
  obtain ⟨u, hu⟩ := exists_mem_of_length_pos hlen
  have hupc := hwoken u hu
  -- only the thread of the call is ever at its semaphore
  have hfits := h.fits u
  rw [hupc] at hfits
  generalize m.loc u = l at hfits
  cases l with
  | outside => exact (hfits (t, n)).2.2 rfl
  | releasing k => cases hfits
  | sleeping k =>
    rcases hfits with he | he | he | he <;> cases he
    rw [hpc] at hupc
    cases hupc
  | relocking k => rcases hfits with he | he | he | he | he <;> cases he
  | _ => cases hfits.1

variable [DecidableEq τ]

/-- An atomic section that does not end the call. -/
theorem CallInv.moved {l l' : Loc τ} {a : Act (Call τ) Unit} {sync : State τ (Call τ) Unit}
    (h : CallInv m) (hl : m.loc t = l) (hcounts : SameCounts m.sync sync)
    (hreturns : l.returns t a = [])
    (hparts : l'.call? = l.call? ∧ l'.unserved? = l.unserved? ∧ l'.raises? = l.raises?)
    (hbroadcast : l'.broadcast? = none) :
    CallInv ({ m with sync, returned := m.returned ++ l.returns t a }.goto t l') := by
  rw [hreturns, append_nil]
  rw [← hl] at hparts
  refine (h.counts hcounts).neutral hparts fun ws hws => ?_
  rw [hbroadcast] at hws
  cases hws

theorem CallInv.sync {a : Act (Call τ) Unit} {sync : State τ (Call τ) Unit} {l : Loc τ}
    (h : m.Inv) (he : Effect m.sync t a sync) (hn : Next t (sync.pc t) (m.loc t) a l) :
    CallInv ({ m with sync, returned := m.returned ++ (m.loc t).returns t a }.goto t l) := by
  have hfits := h.fits t
  have hinv := h.calls
  generalize hl : m.loc t = l0 at hn hfits ⊢
  cases hn with
  | lock a ha =>
    have hreturns : Loc.outside.returns t a = [] := by
      cases a <;> rfl
    exact hinv.moved hl (he.sameCounts ha fun w => ⟨(hfits w).1, (hfits w).2.2⟩) hreturns
      ⟨rfl, rfl, rfl⟩ rfl
  | release n =>
    exact hinv.moved hl (he.sameCounts rfl (by simp [hfits.1])) rfl ⟨rfl, rfl, rfl⟩ rfl
  | releaseUp n =>
    have hpc : m.sync.pc t = .releasing () := hfits
    exact hinv.moved hl (he.sameCounts rfl (by simp [hpc])) rfl ⟨rfl, rfl, rfl⟩ rfl
  | down n =>
    cases he
    exact hinv.moved hl (fun _ => ⟨rfl, rfl, rfl⟩) rfl ⟨rfl, rfl, rfl⟩ rfl
  | blocked n hp =>
    cases he with
    | test x hx =>
      -- the test found nothing, or the thread would be past `sema_down`
      have hv : (m.sync.sema x).value = 0 := by
        by_contra hv
        have hx' : x = .inl (t, n) := hfits.sleeping_at hx
        rw [hx'] at hv hp
        rw [testDown_pos hv] at hp
        exact hp (update_self ..)
      exact hinv.moved hl (sameCounts_testDown t (.inr hv)) rfl ⟨rfl, rfl, rfl⟩ rfl
  | served n hp =>
    cases he with
    | test x hx =>
      have hx' : x = .inl (t, n) := hfits.sleeping_at hx
      rw [hx'] at hp ⊢
      have hv : (m.sync.sema (.inl (t, n))).value ≠ 0 := by
        intro hv
        rw [testDown_zero hv, show ((m.sync.setSema _ _).goto t _).pc t = _ from
          update_self ..] at hp
        cases hp
      rw [Loc.returns, append_nil]
      · exact hinv.serve hl hv
      · exact nofun
  | acquire n =>
    cases he
    exact hinv.moved hl (fun _ => ⟨rfl, rfl, rfl⟩) rfl ⟨rfl, rfl, rfl⟩ rfl
  | test n =>
    have hpc : ∀ w, m.sync.pc t ≠ .testing (.inl w) ∧ m.sync.pc t ≠ .woken (.inl w) := by
      rcases hfits with hf | hf | hf | hf | hf <;> simp [hf]
    exact hinv.moved hl (he.sameCounts rfl hpc) rfl ⟨rfl, rfl, rfl⟩ rfl
  | back n =>
    cases he
    exact CallInv.back (m := { m with sync := _ }) (hinv.counts fun _ => ⟨rfl, rfl, rfl⟩) hl
  | _ =>
    cases he
    rw [Loc.returns, append_nil]
    · exact hinv.raise (by rw [hl]; rfl) ⟨by rw [hl]; rfl, rfl⟩ ⟨by rw [hl]; rfl, rfl⟩ rfl
        (by rw [hl]; rfl) fun u hu => (h.alone hfits.2 hu).1
    · exact nofun

theorem Did.inv (hd : Did m t a m') (h : m.Inv) (hok : LockHeld m (t, a)) : m'.Inv := by
  have hheld : m.sync.holder () = some t → m.sync.held t () = true := (h.lock.holder () t).mp
  -- a step that leaves the lock and the semaphores alone
  have hfits : ∀ {l}, l.Fits t (m.sync.pc t) (m.sync.held t ()) →
      ∀ u, ((m.goto t l).loc u).Fits u (m.sync.pc u) (m.sync.held u ()) := fun ht =>
    forall_goto (P := fun u l => l.Fits u (m.sync.pc u) (m.sync.held u ())) ht fun u _ => h.fits u
  cases hd with
  | @sync a sync l he hn =>
    refine ⟨he.semaInv h.sema, he.lockInv h.sema h.lock, ?_, .sync h he hn⟩
    exact forall_goto (P := fun u l => l.Fits u (sync.pc u) (sync.held u ()))
      ((h.fits t).sync he hn h.sema) fun u hu => (h.fits u).other he h.sema hu
  | wait hloc hpc hholder =>
    exact ⟨h.sema, h.lock, hfits ⟨hpc, hheld hholder⟩,
      h.calls.wait hloc fun u hu => (h.alone (hheld hholder) hu).2⟩
  | signalNone _ _ => exact h
  | signal hloc hpc hholder hwaiters =>
    exact ⟨h.sema, h.lock, hfits ⟨hpc, hheld hholder⟩, h.calls.pop hwaiters
      (by rw [hloc]; exact ⟨rfl, rfl, rfl⟩) nofun⟩
  | broadcast hloc hpc =>
    refine ⟨h.sema, h.lock, hfits ⟨hpc, hheld hok⟩, ?_⟩
    refine h.calls.neutral (by rw [hloc]; exact ⟨rfl, rfl, rfl⟩) fun ws hws => ?_
    rw [← Option.some.inj hws]
    refine ⟨suffix_rfl, fun w hw => ?_⟩
    rw [h.calls.fifo]
    exact mem_append_right _ hw
  | next hloc hholder hwaiters =>
    have hfit := h.fits t
    have hcall := h.calls.threads t
    rw [hloc] at hfit hcall
    refine ⟨h.sema, h.lock, hfits hfit, h.calls.pop hwaiters
      (by rw [hloc]; exact ⟨rfl, rfl, rfl⟩) fun ws hws => ?_⟩
    exact hcall.shrinking ws hws
  | done hloc hwaiters =>
    have hfit := h.fits t
    rw [hloc] at hfit
    refine ⟨h.sema, h.lock, hfits (fits_outside (.inl hfit.1)), ?_⟩
    exact h.calls.neutral (by rw [hloc]; exact ⟨rfl, rfl, rfl⟩) nofun

end

/-! ## Runs -/

structure Delivered (m : Monitor τ) : Prop where
  /-- The calls that were sent a signal are the first that joined the list. -/
  fifo : m.entered = m.sent ++ m.waiters
  once : m.entered.Nodup
  /-- The semaphore of a call that was sent a signal is raised once, at the latest by the
  thread that holds the lock. -/
  raised : ∀ w ∈ m.sent, (m.sync.ups (.inl w) = 1 ∧ ∀ t, (m.loc t).raises? ≠ some w) ∨
    m.sync.ups (.inl w) = 0 ∧ ∃ t, (m.loc t).raises? = some w ∧ m.sync.held t () = true
  spared : ∀ w, w ∉ m.sent → m.sync.ups (.inl w) = 0
  /-- The unit stays until the call takes it, and the thread does not sleep on it. -/
  kept : ∀ t n, m.loc t = .sleeping n → m.sync.ups (.inl (t, n)) = 1 →
    (m.sync.sema (.inl (t, n))).value = 1 ∧ m.sync.pc t ≠ .waiting (.inl (t, n))
  /-- Every return has a signal of its own. -/
  matched : m.returned.Nodup ∧ ∀ w ∈ m.returned, w ∈ m.sent ∧ m.sync.ups (.inl w) = 1

/-- What the step `a` of thread `t` does. -/
structure Delivers [DecidableEq τ] (m : Monitor τ) (t : τ) (a : CondAct τ) (m' : Monitor τ) : Prop where
  /-- If some call has joined and was sent no signal, a signal goes to the first of them. -/
  signal : a = .signal ∨ a = .next → ∀ w rest, m.entered = m.sent ++ w :: rest →
    m'.sent = m.sent ++ [w] ∧ m'.waiters = rest ∧ (m'.loc t).raises? = some w
  raises : ∀ w, (m.loc t).raises? = some w → m'.sync = m.sync.raise (.inl w)
  /-- A call returns after its signal and with the lock held. -/
  returns : m'.returned ≠ m.returned → ∃ n, m'.returned = m.returned ++ [(t, n)] ∧
    (t, n) ∈ m.sent ∧ m'.sync.holder () = some t ∧ m'.sync.held t () = true
  /-- After a broadcast every call that was on the list has been sent a signal. -/
  broadcast : ∀ ws, m.loc t = .broadcasting ws → m'.loc t = .outside →
    ∀ w ∈ ws, w ∈ m'.sent ∧ w ∉ m'.waiters

section
variable {m m' : Monitor τ} {t : τ} {a : CondAct τ}

theorem start_inv : (Monitor.start : Monitor τ).Inv := by
  have hok : ∀ t, CallOk (Monitor.start : Monitor τ) t .outside := fun t =>
    ⟨nofun, nofun, nofun,
      fun n hn => absurd hn (Nat.not_lt_zero n),
      fun n => iff_of_false (by simp [Monitor.start]) (by simp [Monitor.start]),
      nofun⟩
  refine ⟨start_semaInv _, start_lockInv _, fun t => fits_outside (.inl rfl), hok, rfl,
    nodup_nil, fun t n => ?_, fun w => rfl, fun w _ => rfl, nofun,
    nodup_nil⟩
  exact iff_of_false (by simp [Monitor.start]) (Nat.not_lt_zero n)

theorem CallInv.first (h : CallInv m) {w : Call τ} {rest : List (Call τ)}
    (hentered : m.entered = m.sent ++ w :: rest) : m.waiters = w :: rest := by
  rw [h.fifo] at hentered
  exact append_cancel_left hentered

theorem CallInv.sent_of_served (h : CallInv m) {w : Call τ} (hw : m.sync.downs (.inl w) = 1) :
    w ∈ m.sent ∧ m.sync.ups (.inl w) = 1 := by
  have hbalance := h.balance w
  have hsent : w ∈ m.sent := by
    by_contra hns
    have := h.unsent w hns
    omega
  refine ⟨hsent, h.raised w hsent fun t ht => ?_⟩
  have := ((h.threads t).raising w ht).2
  omega

theorem Monitor.Inv.delivered (h : m.Inv) : Delivered m := by
  refine ⟨h.calls.fifo, h.calls.nodup, fun w hw => ?_, h.calls.unsent, fun t n hloc hups => ?_,
    h.calls.returned_nodup, fun w hw => ?_⟩
  · by_cases hraises : ∃ t, (m.loc t).raises? = some w
    · obtain ⟨t, ht⟩ := hraises
      have hfits := h.fits t
      refine .inr ⟨((h.calls.threads t).raising w ht).2, t, ht, ?_⟩
      generalize m.loc t = l at ht hfits
      cases l with
      | raising w' b => exact hfits.2
      | _ => cases ht
    · have hnone := fun t ht => hraises ⟨t, ht⟩
      exact .inl ⟨h.calls.raised w hw hnone, hnone⟩
  · have hzero := (h.calls.threads t).unserved n (by rw [hloc]; rfl)
    have hbalance := h.calls.balance (t, n)
    have hone : (m.sync.sema (.inl (t, n))).value.toNat = 1 := by omega
    exact ⟨UInt32.toNat.inj hone, h.not_waiting hone⟩
  · obtain ⟨t, n⟩ := w
    have hok := h.calls.threads t
    obtain ⟨hn, hcall⟩ := (hok.returned n).mp hw
    refine h.calls.sent_of_served (hok.served n hn fun hu => hcall ?_)
    generalize m.loc t = l at hu ⊢
    cases l <;> first | exact hu | cases hu

variable [DecidableEq τ]

theorem delivers_pop (h : CallInv m) {w : Call τ} {rest : List (Call τ)}
    {b : Option (List (Call τ))} (hwaiters : m.waiters = w :: rest)
    (hraises : (m.loc t).raises? = none) : Delivers m t a (m.pop t w rest b) := by
  refine ⟨fun _ w' rest' hentered => ?_, fun w' hw' => ?_, fun hne => absurd rfl hne,
    fun ws _ hout => ?_⟩
  · have hfirst := h.first hentered
    rw [hwaiters] at hfirst
    obtain ⟨rfl, rfl⟩ := List.cons.inj hfirst
    exact ⟨rfl, rfl, by rw [Monitor.pop, goto_loc_self]; rfl⟩
  · rw [hraises] at hw'
    cases hw'
  · rw [Monitor.pop, goto_loc_self] at hout
    cases hout

theorem delivers_quiet (h : CallInv m) (hloc : m.loc t = .outside)
    (hreturned : m'.returned = m.returned) (ha : a = .signal ∨ a = .next → m.waiters = []) :
    Delivers m t a m' := by
  refine ⟨fun hsends w rest hentered => ?_, fun w hw => ?_, fun hne => absurd hreturned hne,
    fun ws hws => ?_⟩
  · have hnone := ha hsends
    rw [h.first hentered] at hnone
    cases hnone
  · rw [hloc] at hw
    cases hw
  · rw [hloc] at hws
    cases hws

theorem Did.delivers (hd : Did m t a m') (h : m.Inv) : Delivers m t a m' := by
  cases hd with
  | @sync a sync l he hn =>
    refine ⟨fun ha => (by rcases ha with ha | ha <;> cases ha), fun w hw => ?_, fun hne => ?_,
      fun ws hws => ?_⟩
    · generalize m.loc t = l0 at hn hw
      cases hn <;> cases hw <;> cases he <;> rfl
    · -- only the end of `lock_acquire` in `cond_wait` is a return
      have hok := h.calls.threads t
      generalize m.loc t = l0 at hn hne hok ⊢
      cases hn with
      | back n =>
        have hn := hok.current n rfl
        have hserved := hok.served n (by omega) nofun
        cases he with
        | setHolder k _ =>
          refine ⟨n, rfl, (h.calls.sent_of_served hserved).1, ?_, ?_⟩
          · show update m.sync.holder k (some t) () = some t
            exact update_self ..
          · show update m.sync.held t (update (m.sync.held t) k true) t () = true
            rw [update_self]
            exact update_self ..
      | lock a ha =>
        have hreturns : Loc.outside.returns t a = [] := by
          cases a <;> rfl
        exact absurd (by rw [hreturns]; exact append_nil _) hne
      | _ => exact absurd (append_nil _) hne
    · rw [hws] at hn
      cases hn
  | wait hloc hpc hholder =>
    exact delivers_quiet h.calls hloc rfl fun ha => by rcases ha with ha | ha <;> cases ha
  | signalNone hloc hwaiters => exact delivers_quiet h.calls hloc rfl fun _ => hwaiters
  | signal hloc hpc hholder hwaiters => exact delivers_pop h.calls hwaiters (by rw [hloc]; rfl)
  | broadcast hloc hpc =>
    exact delivers_quiet h.calls hloc rfl fun ha => by rcases ha with ha | ha <;> cases ha
  | next hloc hholder hwaiters => exact delivers_pop h.calls hwaiters (by rw [hloc]; rfl)
  | @done ws hloc hwaiters =>
    refine ⟨fun _ w rest hentered => ?_, fun w hw => ?_, fun hne => absurd rfl hne,
      fun ws' hws' _ w hw => ?_⟩
    · rw [h.calls.first hentered] at hwaiters
      cases hwaiters
    · rw [hloc] at hw
      cases hw
    · -- all the calls that had joined have been sent a signal
      have hmem := ((h.calls.threads t).shrinking ws' (by rw [hws']; rfl)).2 w hw
      rw [h.calls.fifo, hwaiters, append_nil] at hmem
      refine ⟨hmem, ?_⟩
      show w ∉ m.waiters
      rw [hwaiters]
      exact not_mem_nil

/-- **Each signal reaches exactly one waiter**, whatever the interleaving. -/
theorem signals_reach_one_waiter {as : List (τ × CondAct τ)}
    (hrun : Run Monitor.step LockHeld Monitor.start as m) :
    Delivered m ∧ ∀ t a m', m.step (t, a) = some m' → Delivers m t a m' := by
  have hinv : m.Inv := hrun.invariant
    (fun s a s' hs hok hstep => (did_of_step hstep).inv hs hok) start_inv
  exact ⟨hinv.delivered, fun t a m' hstep => (did_of_step hstep).delivers hinv⟩

end

/-- Thread 0 waits, thread 1 broadcasts, thread 0 returns with the lock. -/
theorem signals_reach_one_waiter_two_threads :
    ∃ m : Monitor (Fin 2), Run Monitor.step LockHeld Monitor.start
        [(0, .sync (.acquire ())), (0, .sync .test), (0, .sync .setHolder), (0, .wait),
          (0, .sync (.release ())), (0, .sync .releaseUp), (0, .sync (.down (0, 0))),
          (0, .sync .test), (1, .sync (.acquire ())), (1, .sync .test), (1, .sync .setHolder),
          (1, .broadcast), (1, .next), (1, .sync (.up (0, 0))), (1, .next),
          (1, .sync (.release ())), (1, .sync .releaseUp), (0, .sync .test),
          (0, .sync (.acquire ())), (0, .sync .test), (0, .sync .setHolder)] m ∧
      m.returned = [(0, 0)] ∧ Delivered m := by
  refine Run.exists_guarded (fun m => m.returned = [(0, 0)]) (by decide +kernel)
    fun m hrun hm => ⟨hm, ?_⟩
  exact (signals_reach_one_waiter hrun).1

end Pintos.Threads
