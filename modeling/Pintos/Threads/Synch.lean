import Mathlib.Data.List.Nodup
import Mathlib.Logic.Function.Basic
import Pintos.Lib.Run

/-!
# Semaphores and locks (`threads/synch.c`)

Interrupts are off while `sema_down`, `sema_try_down` and `sema_up` look at a
semaphore, so these sections are atomic; everywhere else the processor may be
given to another thread. In particular a thread that `sema_up` has woken tests the
value again only when it runs, and may find that another thread was faster; and
between the two halves of `lock_acquire` and of `lock_release` the lock's semaphore
and its `holder` do not agree.

A state is that of any number of threads `τ`, semaphores `σ` and locks `κ`. The
runs are all the interleavings of the atomic sections of the calls, whatever the
scheduler does.
-/

namespace Pintos.Threads

open Lib List Function

/-! ## struct semaphore -/

structure Semaphore (τ : Type) where
  value : UInt32
  waiters : List τ

section
variable {τ : Type}

def semaInit (value : UInt32) : Semaphore τ := ⟨value, []⟩

/-- The test of the loop in `sema_down`: the value is decremented and the loop ends, or the
thread joins the waiters. -/
def semaTest (sema : Semaphore τ) (t : τ) : Bool × Semaphore τ :=
  if sema.value = 0 then (false, { sema with waiters := sema.waiters ++ [t] })
  else (true, { sema with value := sema.value - 1 })

def semaTryDown (sema : Semaphore τ) : Bool × Semaphore τ :=
  if sema.value > 0 then (true, { sema with value := sema.value - 1 }) else (false, sema)

def semaUp (sema : Semaphore τ) : Option τ × Semaphore τ :=
  match sema.waiters with
  | [] => (none, { sema with value := sema.value + 1 })
  | t :: rest => (some t, { value := sema.value + 1, waiters := rest })

end

/-- A value that is decremented was not 0. -/
theorem toNat_sub_one {v : UInt32} (h : v ≠ 0) : (v - 1).toNat + 1 = v.toNat := by
  have hpos : v.toNat ≠ 0 := fun h0 => h (UInt32.toNat.inj h0)
  rw [UInt32.toNat_sub_of_le _ _ (by rw [UInt32.le_iff_toNat_le]; show 1 ≤ v.toNat; omega)]
  show v.toNat - 1 + 1 = v.toNat
  omega

theorem toNat_add_one_le (v : UInt32) : (v + 1).toNat ≤ v.toNat + 1 := by
  rw [UInt32.toNat_add]
  exact Nat.mod_le _ _

/-! ## The machine -/

/-- Where a thread is. A lock `l` is taken by its semaphore `.inr l`. -/
inductive PC (σ κ : Type) where
  | outside
  /-- in `sema_down`, at its first test -/
  | testing (x : σ ⊕ κ)
  /-- in `sema_down`, blocked -/
  | waiting (x : σ ⊕ κ)
  /-- in `sema_down`, unblocked by `sema_up`, before it tests again -/
  | woken (x : σ ⊕ κ)
  /-- in `lock_acquire` or `lock_try_acquire`, before `holder` is assigned -/
  | acquired (l : κ)
  /-- in `lock_release`, after `holder` was cleared, before `sema_up` -/
  | releasing (l : κ)
deriving DecidableEq

structure State (τ σ κ : Type) where
  sema : σ ⊕ κ → Semaphore τ
  holder : κ → Option τ
  pc : τ → PC σ κ
  /-- The thread has returned from taking the lock and has not called `lock_release`. -/
  held : τ → κ → Bool
  /-- Completed downs and ups. -/
  downs : σ ⊕ κ → Nat
  ups : σ ⊕ κ → Nat

inductive Act (σ κ : Type) where
  | down (s : σ)
  | acquire (l : κ)
  | test
  | tryDown (s : σ)
  | tryAcquire (l : κ)
  | setHolder
  | up (s : σ)
  | release (l : κ)
  | releaseUp

variable {τ σ κ : Type}

open State

section
variable [DecidableEq τ] [DecidableEq σ] [DecidableEq κ]

namespace State

/-- `sema_init` with these values and `lock_init`, and no thread in a call. -/
def start (init : σ → UInt32) : State τ σ κ where
  sema := Sum.elim (fun s => semaInit (init s)) (fun _ => semaInit 1)
  holder := fun _ => none
  pc := fun _ => .outside
  held := fun _ _ => false
  downs := fun _ => 0
  ups := fun _ => 0

def goto (s : State τ σ κ) (t : τ) (p : PC σ κ) : State τ σ κ :=
  { s with pc := update s.pc t p }

def setSema (s : State τ σ κ) (x : σ ⊕ κ) (sema : Semaphore τ) : State τ σ κ :=
  { s with sema := update s.sema x sema }

def afterDown : σ ⊕ κ → PC σ κ
  | .inl _ => .outside
  | .inr l => .acquired l

def countDown (s : State τ σ κ) (x : σ ⊕ κ) : State τ σ κ :=
  { s with downs := update s.downs x (s.downs x + 1) }

def testDown (s : State τ σ κ) (t : τ) (x : σ ⊕ κ) : State τ σ κ :=
  match semaTest (s.sema x) t with
  | (false, sema) => (s.setSema x sema).goto t (.waiting x)
  | (true, sema) => ((s.setSema x sema).countDown x).goto t (afterDown x)

def raise (s : State τ σ κ) (x : σ ⊕ κ) : State τ σ κ :=
  let s' := { s with ups := update s.ups x (s.ups x + 1) }
  match semaUp (s.sema x) with
  | (none, sema) => s'.setSema x sema
  | (some t, sema) => (s'.setSema x sema).goto t (.woken x)

end State

/-- One atomic section, executed by thread `t`. `sema_up` and `sema_try_down` of a plain
semaphore may also be called by an interrupt handler, at any place of the thread that it
interrupts. There is no value where an assertion fails. -/
def step (s : State τ σ κ) : τ × Act σ κ → Option (State τ σ κ)
  | (t, .down x) => if s.pc t = .outside then some (s.goto t (.testing (.inl x))) else none
  | (t, .acquire l) =>
    -- ASSERT (!lock_held_by_current_thread (lock))
    if s.pc t = .outside ∧ s.holder l ≠ some t then some (s.goto t (.testing (.inr l))) else none
  | (t, .test) =>
    match s.pc t with
    | .testing x => some (s.testDown t x)
    | .woken x => some (s.testDown t x)
    | _ => none
  | (_, .tryDown x) =>
    match semaTryDown (s.sema (.inl x)) with
    | (true, sema) => some ((s.setSema (.inl x) sema).countDown (.inl x))
    | (false, _) => some s
  | (t, .tryAcquire l) =>
    if s.pc t = .outside ∧ s.holder l ≠ some t then
      match semaTryDown (s.sema (.inr l)) with
      | (true, sema) => some (((s.setSema (.inr l) sema).countDown (.inr l)).goto t (.acquired l))
      | (false, _) => some s
    else none
  | (t, .setHolder) =>
    match s.pc t with
    | .acquired l =>
      some ({ s with
        holder := update s.holder l (some t)
        held := update s.held t (update (s.held t) l true) }.goto t .outside)
    | _ => none
  | (_, .up x) => some (s.raise (.inl x))
  | (t, .release l) =>
    -- ASSERT (lock_held_by_current_thread (lock))
    if s.pc t = .outside ∧ s.holder l = some t then
      some ({ s with
        holder := update s.holder l none
        held := update s.held t (update (s.held t) l false) }.goto t (.releasing l))
    else none
  | (t, .releaseUp) =>
    match s.pc t with
    | .releasing l => some ((s.goto t .outside).raise (.inr l))
    | _ => none

end

/-! ## Semaphores -/

/-- At least `n` threads have been unblocked from `x` and have not tested the value since. -/
def Woken (pc : τ → PC σ κ) (x : σ ⊕ κ) (n : Nat) : Prop :=
  ∃ woken : List τ, woken.Nodup ∧ (∀ t ∈ woken, pc t = .woken x) ∧ n ≤ woken.length

structure SemaOk (x : σ ⊕ κ) (init : UInt32) (sema : Semaphore τ) (downs ups : Nat)
    (pc : τ → PC σ κ) : Prop where
  counted : sema.value.toNat + downs ≤ init.toNat + ups
  waiting : ∀ t, t ∈ sema.waiters ↔ pc t = .waiting x
  nodup : sema.waiters.Nodup
  awake : sema.waiters ≠ [] → Woken pc x sema.value.toNat

def SemaInv (init : σ ⊕ κ → UInt32) (s : State τ σ κ) : Prop :=
  ∀ x, SemaOk x (init x) (s.sema x) (s.downs x) (s.ups x) s.pc

section
variable {pc pc' : τ → PC σ κ} {x : σ ⊕ κ} {m n : Nat} {t : τ} {p : PC σ κ}

theorem Woken.mono (h : Woken pc x n) (hmn : m ≤ n) : Woken pc x m := by
  obtain ⟨woken, hnd, hall, hlen⟩ := h
  exact ⟨woken, hnd, hall, Nat.le_trans hmn hlen⟩

theorem woken_zero : Woken pc x 0 := ⟨[], nodup_nil, nofun, Nat.le_refl 0⟩

variable [DecidableEq τ]

theorem Woken.leave (h : Woken pc x (n + 1)) (t : τ) (p : PC σ κ) :
    Woken (update pc t p) x n := by
  obtain ⟨woken, hnd, hall, hlen⟩ := h
  refine ⟨woken.erase t, hnd.erase t, fun u hu => ?_, ?_⟩
  · obtain ⟨hne, hmem⟩ := (hnd.mem_erase_iff).mp hu
    rw [update_of_ne hne]
    exact hall u hmem
  · by_cases hmem : t ∈ woken
    · rw [length_erase_of_mem hmem]
      omega
    · rw [erase_of_not_mem hmem]
      omega

theorem Woken.join (h : Woken pc x n) (hne : pc t ≠ .woken x) :
    Woken (update pc t (.woken x)) x (n + 1) := by
  obtain ⟨woken, hnd, hall, hlen⟩ := h
  have hnot : t ∉ woken := fun hmem => hne (hall t hmem)
  refine ⟨t :: woken, nodup_cons.mpr ⟨hnot, hnd⟩, fun u hu => ?_, Nat.succ_le_succ hlen⟩
  rcases mem_cons.mp hu with rfl | hu
  · exact update_self _ _ _
  · have hut : u ≠ t := fun he => hnot (he ▸ hu)
    rw [update_of_ne hut]
    exact hall u hu

/-- A thread that has not been woken from `x` may go anywhere. -/
theorem Woken.goto (h : Woken pc x n) (hne : pc t ≠ .woken x) :
    Woken (update pc t p) x n := by
  obtain ⟨woken, hnd, hall, hlen⟩ := h
  refine ⟨woken, hnd, fun u hu => ?_, hlen⟩
  have hut : u ≠ t := fun he => hne (he ▸ hall u hu)
  rw [update_of_ne hut]
  exact hall u hu

end

section
variable {x : σ ⊕ κ} {init : UInt32} {sema : Semaphore τ} {downs ups : Nat} {pc : τ → PC σ κ}
  {t : τ} {p : PC σ κ} {rest : List τ}

theorem SemaOk.tryDown (h : SemaOk x init sema downs ups pc) (hv : sema.value ≠ 0) :
    SemaOk x init { sema with value := sema.value - 1 } (downs + 1) ups pc := by
  have hone := toNat_sub_one hv
  have hcount := h.counted
  exact ⟨by show (sema.value - 1).toNat + (downs + 1) ≤ _; omega, h.waiting, h.nodup,
    fun hne => (h.awake hne).mono (by show (sema.value - 1).toNat ≤ _; omega)⟩

theorem SemaOk.up_none (h : SemaOk x init sema downs ups pc) (hw : sema.waiters = []) :
    SemaOk x init { sema with value := sema.value + 1 } downs (ups + 1) pc := by
  have hone := toNat_add_one_le sema.value
  have hcount := h.counted
  exact ⟨by show (sema.value + 1).toNat + downs ≤ _; omega, h.waiting, h.nodup,
    fun hne => absurd hw hne⟩

variable [DecidableEq τ]

section
variable (h : SemaOk x init sema downs ups pc)
include h

theorem SemaOk.goto (hwaiting : pc t ≠ .waiting x) (hwoken : pc t ≠ .woken x)
    (hp : p ≠ .waiting x) :
    SemaOk x init sema downs ups (update pc t p) where
  __ := h
  waiting := by
    intro u
    rw [h.waiting]
    by_cases hu : u = t
    · rw [hu, update_self]
      exact iff_of_false hwaiting hp
    · rw [update_of_ne hu]
  awake := fun hne => (h.awake hne).goto hwoken

theorem SemaOk.take (hv : sema.value ≠ 0) (hwaiting : pc t ≠ .waiting x) (hp : p ≠ .waiting x) :
    SemaOk x init { sema with value := sema.value - 1 } (downs + 1) ups (update pc t p) := by
  have hone := toNat_sub_one hv
  have hcount := h.counted
  refine ⟨by show (sema.value - 1).toNat + (downs + 1) ≤ _; omega, fun u => ?_, h.nodup, fun hne => ?_⟩
  · rw [h.waiting]
    by_cases hu : u = t
    · rw [hu, update_self]
      exact iff_of_false hwaiting hp
    · rw [update_of_ne hu]
  · have hw := h.awake hne
    rw [← hone] at hw
    exact hw.leave t p

theorem SemaOk.block (hv : sema.value = 0) (hwaiting : pc t ≠ .waiting x) :
    SemaOk x init { sema with waiters := sema.waiters ++ [t] } downs ups
      (update pc t (.waiting x)) := by
  have hnot : t ∉ sema.waiters := fun hmem => hwaiting ((h.waiting t).mp hmem)
  refine ⟨h.counted, fun u => ?_, ?_, fun _ => ?_⟩
  · rw [mem_append, mem_singleton, h.waiting]
    by_cases hu : u = t
    · rw [hu, update_self]
      simp
    · rw [update_of_ne hu]
      simp [hu]
  · exact nodup_append.mpr ⟨h.nodup, nodup_singleton t, fun a ha b hb => by
      rw [mem_singleton.mp hb]
      exact fun he => hnot (he ▸ ha)⟩
  · show Woken _ x sema.value.toNat
    rw [hv]
    exact woken_zero

theorem SemaOk.up_some (hw : sema.waiters = t :: rest) :
    SemaOk x init { value := sema.value + 1, waiters := rest } downs (ups + 1)
      (update pc t (.woken x)) := by
  have hone := toNat_add_one_le sema.value
  have hcount := h.counted
  have hnd := h.nodup
  rw [hw, nodup_cons] at hnd
  have ht : pc t = .waiting x := (h.waiting t).mp (by rw [hw]; exact mem_cons_self)
  refine ⟨by show (sema.value + 1).toNat + downs ≤ _; omega, fun u => ?_, hnd.2, fun _ => ?_⟩
  · by_cases hu : u = t
    · rw [hu, update_self]
      exact iff_of_false hnd.1 (by simp)
    · rw [update_of_ne hu, ← h.waiting, hw, mem_cons, or_iff_right hu]
  · have hwoken := h.awake (by rw [hw]; simp)
    exact (hwoken.join (by rw [ht]; simp)).mono hone

end

theorem SemaInv.goto {init : σ ⊕ κ → UInt32} {s : State τ σ κ} (h : SemaInv init s)
    (hold : ∀ x, s.pc t ≠ .waiting x ∧ s.pc t ≠ .woken x) (hp : ∀ x, p ≠ .waiting x) :
    SemaInv init (s.goto t p) :=
  fun x => (h x).goto (hold x).1 (hold x).2 (hp x)

end

section
variable {init : σ ⊕ κ → UInt32} {s s' : State τ σ κ} {x : σ ⊕ κ} {t : τ} {p : PC σ κ}

theorem afterDown_ne (x y : σ ⊕ κ) : afterDown x ≠ .waiting y := by
  cases x <;> simp [afterDown]

variable [DecidableEq σ] [DecidableEq κ]

theorem SemaInv.update (h : SemaInv init s) {sema : Semaphore τ} {downs ups : Nat} {pc : τ → PC σ κ}
    (hsema : s'.sema = update s.sema x sema)
    (hdowns : s'.downs = update s.downs x downs)
    (hups : s'.ups = update s.ups x ups) (hpc : s'.pc = pc)
    (hx : SemaOk x (init x) sema downs ups pc)
    (hother : ∀ y, y ≠ x → SemaOk y (init y) (s.sema y) (s.downs y) (s.ups y) s.pc →
      SemaOk y (init y) (s.sema y) (s.downs y) (s.ups y) pc) : SemaInv init s' := by
  intro y
  rw [hsema, hdowns, hups, hpc]
  by_cases hy : y = x
  · subst hy
    simp only [update_self]
    exact hx
  · simp only [update_of_ne hy]
    exact hother y hy (h y)

theorem value_update_inl (sema : σ ⊕ κ → Semaphore τ) (x : σ) (new : Semaphore τ) (l : κ) :
    (update sema (.inl x) new (.inr l)).value = (sema (.inr l)).value := by
  rw [update_of_ne (by simp)]

theorem value_update_waiters (sema : σ ⊕ κ → Semaphore τ) (x : σ ⊕ κ) (waiters : List τ)
    (y : σ ⊕ κ) :
    (update sema x { sema x with waiters := waiters } y).value = (sema y).value := by
  by_cases hy : y = x
  · rw [hy, update_self]
  · rw [update_of_ne hy]

theorem SemaInv.tryDown (h : SemaInv init s) (hv : (s.sema x).value ≠ 0) :
    SemaInv init ((s.setSema x { s.sema x with value := (s.sema x).value - 1 }).countDown x) :=
  h.update rfl rfl (update_eq_self ..).symm rfl ((h x).tryDown hv) fun _ _ hok => hok

variable [DecidableEq τ]

theorem testDown_zero (hv : (s.sema x).value = 0) :
    s.testDown t x = (s.setSema x
      { s.sema x with waiters := (s.sema x).waiters ++ [t] }).goto t (.waiting x) := by
  simp [State.testDown, semaTest, hv]

theorem testDown_pos (hv : (s.sema x).value ≠ 0) :
    s.testDown t x = ((s.setSema x
      { s.sema x with value := (s.sema x).value - 1 }).countDown x).goto t (afterDown x) := by
  simp [State.testDown, semaTest, hv]

/-- **A test in `sema_down`** keeps the semaphores in order. -/
theorem SemaInv.testDown (h : SemaInv init s) (hpc : s.pc t = .testing x ∨ s.pc t = .woken x) :
    SemaInv init (s.testDown t x) := by
  have hwaiting : ∀ y, s.pc t ≠ .waiting y := by
    intro y
    rcases hpc with hpc | hpc <;> simp [hpc]
  have hwoken : ∀ y, y ≠ x → s.pc t ≠ .woken y := by
    intro y hy
    rcases hpc with hpc | hpc
    · simp [hpc]
    · simp [hpc, hy.symm]
  by_cases hv : (s.sema x).value = 0
  · rw [testDown_zero hv]
    refine h.update rfl (update_eq_self ..).symm (update_eq_self ..).symm rfl
      ((h x).block hv (hwaiting x)) fun y hy hok => ?_
    exact hok.goto (hwaiting y) (hwoken y hy) (by simp [hy.symm])
  · rw [testDown_pos hv]
    refine h.update rfl rfl (update_eq_self ..).symm rfl
      ((h x).take hv (hwaiting x) (afterDown_ne x x)) fun y hy hok => ?_
    exact hok.goto (hwaiting y) (hwoken y hy) (afterDown_ne x y)

/-- **`sema_up`** keeps the semaphores in order. -/
theorem SemaInv.raise (h : SemaInv init s) (x : σ ⊕ κ) : SemaInv init (s.raise x) := by
  cases hw : (s.sema x).waiters with
  | nil =>
    have hstate : s.raise x = { s with ups := Function.update s.ups x (s.ups x + 1) }.setSema x
        { s.sema x with value := (s.sema x).value + 1 } := by
      simp [State.raise, semaUp, hw]
    rw [hstate]
    exact h.update rfl (Function.update_eq_self ..).symm rfl rfl ((h x).up_none hw)
      fun _ _ hok => hok
  | cons t rest =>
    have hstate : s.raise x = ({ s with ups := Function.update s.ups x (s.ups x + 1) }.setSema x
        { value := (s.sema x).value + 1, waiters := rest }).goto t (.woken x) := by
      simp [State.raise, semaUp, hw]
    have ht : s.pc t = .waiting x := ((h x).waiting t).mp (by rw [hw]; exact List.mem_cons_self)
    rw [hstate]
    refine h.update rfl (Function.update_eq_self ..).symm rfl rfl ((h x).up_some hw)
      fun y hy hok => ?_
    exact hok.goto (by simp [ht, hy.symm]) (by simp [ht]) (by simp)

end

/-! ## Steps -/

theorem semaTryDown_cases (sema : Semaphore τ) :
    (sema.value ≠ 0 ∧ semaTryDown sema = (true, { sema with value := sema.value - 1 })) ∨
      semaTryDown sema = (false, sema) := by
  unfold semaTryDown
  by_cases hv : sema.value > 0
  · rw [if_pos hv]
    refine .inl ⟨fun h0 => ?_, rfl⟩
    rw [h0] at hv
    exact absurd hv (by decide)
  · rw [if_neg hv]
    exact .inr rfl

section
variable [DecidableEq τ] [DecidableEq σ] [DecidableEq κ]

inductive Effect (s : State τ σ κ) (t : τ) : Act σ κ → State τ σ κ → Prop
  | down (x : σ) : s.pc t = .outside → Effect s t (.down x) (s.goto t (.testing (.inl x)))
  | acquire (l : κ) : s.pc t = .outside → s.holder l ≠ some t →
      Effect s t (.acquire l) (s.goto t (.testing (.inr l)))
  | test (x : σ ⊕ κ) : s.pc t = .testing x ∨ s.pc t = .woken x → Effect s t .test (s.testDown t x)
  | tryDown (x : σ) : (s.sema (.inl x)).value ≠ 0 → Effect s t (.tryDown x)
      ((s.setSema (.inl x) { s.sema (.inl x) with value := (s.sema (.inl x)).value - 1 }).countDown
        (.inl x))
  | tryDownFail (x : σ) : Effect s t (.tryDown x) s
  | tryAcquire (l : κ) : s.pc t = .outside → s.holder l ≠ some t → (s.sema (.inr l)).value ≠ 0 →
      Effect s t (.tryAcquire l) (((s.setSema (.inr l) { s.sema (.inr l) with
        value := (s.sema (.inr l)).value - 1 }).countDown (.inr l)).goto t (.acquired l))
  | tryAcquireFail (l : κ) : Effect s t (.tryAcquire l) s
  | setHolder (l : κ) : s.pc t = .acquired l → Effect s t .setHolder ({ s with
      holder := update s.holder l (some t)
      held := update s.held t (update (s.held t) l true) }.goto t .outside)
  | up (x : σ) : Effect s t (.up x) (s.raise (.inl x))
  | release (l : κ) : s.pc t = .outside → s.holder l = some t → Effect s t (.release l) ({ s with
      holder := update s.holder l none
      held := update s.held t (update (s.held t) l false) }.goto t (.releasing l))
  | releaseUp (l : κ) : s.pc t = .releasing l →
      Effect s t .releaseUp ((s.goto t .outside).raise (.inr l))

variable {init : σ ⊕ κ → UInt32} {s s' : State τ σ κ} {x : σ ⊕ κ} {t : τ} {a : Act σ κ}

theorem effect_of_step (h : step s (t, a) = some s') : Effect s t a s' := by
  cases a with
  | down x =>
    simp only [step] at h
    split at h
    · cases h
      exact .down x ‹_›
    · cases h
  | acquire l =>
    simp only [step] at h
    split at h
    · rename_i hok
      cases h
      exact .acquire l hok.1 hok.2
    · cases h
  | test =>
    simp only [step] at h
    split at h
    · cases h
      exact .test _ (.inl ‹_›)
    · cases h
      exact .test _ (.inr ‹_›)
    · cases h
  | tryDown x =>
    rcases semaTryDown_cases (s.sema (.inl x)) with ⟨hv, heq⟩ | heq
    · simp only [step, heq] at h
      cases h
      exact .tryDown x hv
    · simp only [step, heq] at h
      cases h
      exact .tryDownFail x
  | tryAcquire l =>
    simp only [step] at h
    split at h
    · rename_i hok
      rcases semaTryDown_cases (s.sema (.inr l)) with ⟨hv, heq⟩ | heq
      · simp only [heq] at h
        cases h
        exact .tryAcquire l hok.1 hok.2 hv
      · simp only [heq] at h
        cases h
        exact .tryAcquireFail l
    · cases h
  | setHolder =>
    simp only [step] at h
    split at h
    · cases h
      exact .setHolder _ ‹_›
    · cases h
  | up x =>
    cases h
    exact .up x
  | release l =>
    simp only [step] at h
    split at h
    · rename_i hok
      cases h
      exact .release l hok.1 hok.2
    · cases h
  | releaseUp =>
    simp only [step] at h
    split at h
    · cases h
      exact .releaseUp _ ‹_›
    · cases h

theorem Effect.semaInv (he : Effect s t a s') (h : SemaInv init s) : SemaInv init s' := by
  cases he with
  | down x hpc => exact h.goto (fun y => by simp [hpc]) (fun y => by simp)
  | acquire l hpc _ => exact h.goto (fun y => by simp [hpc]) (fun y => by simp)
  | test x hpc => exact h.testDown hpc
  | tryDown x hv => exact h.tryDown hv
  | tryAcquire l hpc _ hv =>
    refine (h.tryDown hv).goto (fun y => ?_) fun y => by simp
    show s.pc t ≠ _ ∧ s.pc t ≠ _
    simp [hpc]
  | setHolder l hpc =>
    exact (show SemaInv init { s with holder := _, held := _ } from h).goto
      (fun y => by simp [hpc]) (fun y => by simp)
  | up x => exact h.raise _
  | release l hpc _ =>
    exact (show SemaInv init { s with holder := _, held := _ } from h).goto
      (fun y => by simp [hpc]) (fun y => by simp)
  | releaseUp l hpc => exact (h.goto (fun y => by simp [hpc]) (fun y => by simp)).raise _
  | _ => exact h

end

/-! ## Locks -/

def PC.lock? : PC σ κ → Option κ
  | .acquired l => some l
  | .releasing l => some l
  | _ => none

def owns (s : State τ σ κ) (t : τ) (l : κ) : Prop := (s.pc t).lock? = some l ∨ s.held t l = true

structure LockInv (s : State τ σ κ) : Prop where
  unique : ∀ l t t', owns s t l → owns s t' l → t = t'
  taken : ∀ l t, owns s t l → (s.sema (.inr l)).value = 0
  le_one : ∀ l, (s.sema (.inr l)).value.toNat ≤ 1
  holder : ∀ l t, s.holder l = some t ↔ s.held t l = true
  busy : ∀ l t, (s.pc t).lock? = some l → s.held t l = false

section
variable {init : σ ⊕ κ → UInt32} {s s' : State τ σ κ} {l : κ} {t : τ} {p : PC σ κ}

theorem LockInv.neutral (h : LockInv s)
    (hvalue : ∀ l, (s'.sema (.inr l)).value = (s.sema (.inr l)).value)
    (hpc : ∀ t, (s'.pc t).lock? = (s.pc t).lock?) (hheld : s'.held = s.held)
    (hholder : s'.holder = s.holder) : LockInv s' := by
  have howns : ∀ t l, owns s' t l ↔ owns s t l := by
    intro t l
    rw [owns, owns, hpc, hheld]
  refine ⟨fun l t t' ht ht' => h.unique l t t' ((howns t l).mp ht) ((howns t' l).mp ht'),
    fun l t ht => ?_, fun l => ?_, fun l t => ?_, fun l t => ?_⟩
  · rw [hvalue]
    exact h.taken l t ((howns t l).mp ht)
  · rw [hvalue]
    exact h.le_one l
  · rw [hholder, hheld]
    exact h.holder l t
  · rw [hpc, hheld]
    exact h.busy l t

/-- Nobody owns a lock whose value is not 0. -/
theorem LockInv.not_owns (h : LockInv s) (hv : (s.sema (.inr l)).value ≠ 0) (u : τ) :
    ¬ owns s u l := fun hu => hv (h.taken l u hu)

/-- A step after which nobody owns what they did not own before. -/
theorem LockInv.shrink (h : LockInv s) (howns : ∀ t l, owns s' t l → owns s t l)
    (hsema : s'.sema = s.sema) (hholder : ∀ l t, s'.holder l = some t ↔ s'.held t l = true)
    (hbusy : ∀ l t, (s'.pc t).lock? = some l → s'.held t l = false) : LockInv s' where
  unique := fun l t t' ht ht' => h.unique l t t' (howns t l ht) (howns t' l ht')
  taken := fun l t ht => by
    rw [hsema]
    exact h.taken l t (howns t l ht)
  le_one := fun l => by
    rw [hsema]
    exact h.le_one l
  holder := hholder
  busy := hbusy

variable [DecidableEq τ]

theorem lock?_update {pc : τ → PC σ κ} (hp : p.lock? = (pc t).lock?) (u : τ) :
    (update pc t p u).lock? = (pc u).lock? := by
  by_cases hu : u = t
  · rw [hu, update_self, hp]
  · rw [update_of_ne hu]

variable [DecidableEq κ]

theorem held_update (held : τ → κ → Bool) (t : τ) (l : κ) (b : Bool) (u : τ) (k : κ) :
    update held t (update (held t) l b) u k =
      if u = t ∧ k = l then b else held u k := by
  by_cases hu : u = t
  · subst hu
    by_cases hk : k = l
    · subst hk
      simp
    · simp [hk]
  · simp [hu]

/-- **`holder` is assigned** by the thread that has taken the unit. -/
theorem LockInv.setHolder (h : LockInv s) (hpc : s.pc t = .acquired l) :
    LockInv ({ s with
      holder := update s.holder l (some t)
      held := update s.held t (update (s.held t) l true) }.goto t .outside) := by
  have hown : owns s t l := .inl (by rw [hpc]; rfl)
  refine h.shrink (fun u k => ?_) rfl (fun k u => ?_) (fun k u => ?_)
  · rintro (hlock | hk)
    · change (update s.pc t .outside u).lock? = _ at hlock
      by_cases hu : u = t
      · rw [hu, update_self] at hlock
        cases hlock
      · rw [update_of_ne hu] at hlock
        exact .inl hlock
    · change update s.held t _ u k = true at hk
      rw [held_update] at hk
      split at hk
      · rename_i huk
        rw [huk.1, huk.2]
        exact hown
      · exact .inr hk
  · change update s.holder l (some t) k = some u ↔ update s.held t _ u k = true
    rw [held_update]
    by_cases hk : k = l
    · subst hk
      rw [update_self, Option.some_inj]
      by_cases hu : u = t
      · simp [hu]
      · have hnot : s.held u k ≠ true := fun hheld => hu (h.unique k u t (.inr hheld) hown)
        simp [hu, Ne.symm hu, hnot]
    · rw [update_of_ne hk, if_neg fun huk => hk huk.2]
      exact h.holder k u
  · intro hlock
    change (update s.pc t .outside u).lock? = _ at hlock
    change update s.held t _ u k = false
    by_cases hu : u = t
    · rw [hu, update_self] at hlock
      cases hlock
    · rw [update_of_ne hu] at hlock
      rw [held_update, if_neg fun huk => hu huk.1]
      exact h.busy k u hlock

/-- **`holder` is cleared** by the holder. -/
theorem LockInv.release (h : LockInv s) (hholder : s.holder l = some t) :
    LockInv ({ s with
      holder := update s.holder l none
      held := update s.held t (update (s.held t) l false) }.goto t
        (.releasing l)) := by
  have hheld := (h.holder l t).mp hholder
  refine h.shrink (fun u k => ?_) rfl (fun k u => ?_) (fun k u => ?_)
  · rintro (hlock | hk)
    · change (update s.pc t (.releasing l) u).lock? = _ at hlock
      by_cases hu : u = t
      · rw [hu, update_self] at hlock
        rw [hu, ← Option.some.inj hlock]
        exact .inr hheld
      · rw [update_of_ne hu] at hlock
        exact .inl hlock
    · change update s.held t _ u k = true at hk
      rw [held_update] at hk
      split at hk
      · cases hk
      · exact .inr hk
  · change update s.holder l none k = some u ↔ update s.held t _ u k = true
    rw [held_update]
    by_cases hk : k = l
    · subst hk
      rw [update_self]
      by_cases hu : u = t
      · simp [hu]
      · have hnot : s.held u k ≠ true := fun hk => hu (h.unique _ u t (.inr hk) (.inr hheld))
        simp [hu, hnot]
    · rw [update_of_ne hk, if_neg fun huk => hk huk.2]
      exact h.holder k u
  · intro hlock
    change (update s.pc t (.releasing l) u).lock? = _ at hlock
    change update s.held t _ u k = false
    rw [held_update]
    by_cases hu : u = t
    · rw [hu, update_self] at hlock
      rw [if_pos ⟨hu, (Option.some.inj hlock).symm⟩]
    · rw [update_of_ne hu] at hlock
      rw [if_neg fun huk => hu huk.1]
      exact h.busy k u hlock

variable [DecidableEq σ]

theorem LockInv.take (h : LockInv s) (hpc : (s.pc t).lock? = none)
    (hv : (s.sema (.inr l)).value ≠ 0) :
    LockInv (((s.setSema (.inr l) { s.sema (.inr l) with
      value := (s.sema (.inr l)).value - 1 }).countDown (.inr l)).goto t (.acquired l)) := by
  have hone := toNat_sub_one hv
  have hle := h.le_one l
  obtain ⟨s', hs'⟩ : ∃ s', s' = ((s.setSema (.inr l) { s.sema (.inr l) with
    value := (s.sema (.inr l)).value - 1 }).countDown (.inr l)).goto t (.acquired l) := ⟨_, rfl⟩
  rw [← hs']
  have hpcs : ∀ u, s'.pc u = if u = t then .acquired l else s.pc u := by
    intro u
    rw [hs']
    exact update_apply ..
  have hheld : s'.held = s.held := by rw [hs']; rfl
  have hvalue : ∀ k, k ≠ l → (s'.sema (.inr k)).value = (s.sema (.inr k)).value := by
    intro k hk
    rw [hs']
    show (update s.sema (.inr l) _ (.inr k)).value = _
    rw [update_of_ne (by simp [hk])]
  have hzero : (s'.sema (.inr l)).value = 0 := by
    apply UInt32.toNat.inj
    rw [hs']
    show (update s.sema (.inr l) _ (.inr l)).value.toNat = 0
    rw [update_self]
    show ((s.sema (.inr l)).value - 1).toNat = 0
    omega
  -- only the ownership of this lock by this thread is new
  have howns : ∀ u k, owns s' u k → owns s u k ∨ (u = t ∧ k = l) := by
    rintro u k (hlock | hk)
    · rw [hpcs] at hlock
      by_cases hu : u = t
      · rw [if_pos hu] at hlock
        exact .inr ⟨hu, (Option.some.inj hlock).symm⟩
      · rw [if_neg hu] at hlock
        exact .inl (.inl hlock)
    · rw [hheld] at hk
      exact .inl (.inr hk)
  refine ⟨fun k u u' hu hu' => ?_, fun k u hu => ?_, fun k => ?_, fun k u => ?_, fun k u hu => ?_⟩
  · rcases howns u k hu with hu | ⟨rfl, rfl⟩ <;> rcases howns u' k hu' with hu' | ⟨rfl, hk⟩
    · exact h.unique k u u' hu hu'
    · rw [hk] at hu
      exact absurd hu (h.not_owns hv u)
    · exact absurd hu' (h.not_owns hv u')
    · rfl
  · by_cases hk : k = l
    · rw [hk]
      exact hzero
    · rw [hvalue k hk]
      exact h.taken k u ((howns u k hu).resolve_right fun he => hk he.2)
  · by_cases hk : k = l
    · rw [hk, hzero]
      exact Nat.zero_le 1
    · rw [hvalue k hk]
      exact h.le_one k
  · rw [hheld, show s'.holder = s.holder by rw [hs']; rfl]
    exact h.holder k u
  · rw [hheld]
    rw [hpcs] at hu
    by_cases hut : u = t
    · rw [if_pos hut] at hu
      rw [hut, ← Option.some.inj hu]
      exact Bool.eq_false_iff.mpr fun hheld => h.not_owns hv t (.inr hheld)
    · rw [if_neg hut] at hu
      exact h.busy k u hu

/-- `sema_up` changes the place of a thread that was waiting only. -/
theorem raise_pc (h : SemaInv init s) (x : σ ⊕ κ) (u : τ) :
    (s.raise x).pc u = s.pc u ∨ ∃ y, s.pc u = .waiting y ∧ (s.raise x).pc u = .woken y := by
  unfold State.raise semaUp
  cases hw : (s.sema x).waiters with
  | nil => exact .inl rfl
  | cons t rest =>
    have ht : s.pc t = .waiting x := ((h x).waiting t).mp (by rw [hw]; exact mem_cons_self)
    show update s.pc t (.woken x) u = _ ∨ ∃ y, _ ∧ update s.pc t (.woken x) u = _
    by_cases hu : u = t
    · rw [hu, update_self]
      exact .inr ⟨x, ht, rfl⟩
    · rw [update_of_ne hu]
      exact .inl rfl

theorem raise_lock? (h : SemaInv init s) (x : σ ⊕ κ) (u : τ) :
    ((s.raise x).pc u).lock? = (s.pc u).lock? := by
  rcases raise_pc h x u with hpc | ⟨y, hpc, hpc'⟩
  · rw [hpc]
  · rw [hpc, hpc']
    rfl

theorem raise_held (s : State τ σ κ) (x : σ ⊕ κ) :
    (s.raise x).held = s.held ∧ (s.raise x).holder = s.holder := by
  unfold State.raise semaUp
  cases (s.sema x).waiters <;> exact ⟨rfl, rfl⟩

theorem raise_value (s : State τ σ κ) (x y : σ ⊕ κ) : ((s.raise x).sema y).value =
    if y = x then (s.sema x).value + 1 else (s.sema y).value := by
  unfold State.raise semaUp
  cases (s.sema x).waiters <;>
  · by_cases hy : y = x
    · subst hy
      simp [setSema, State.goto]
    · simp [setSema, State.goto, hy]

theorem LockInv.releaseUp (h : LockInv s) (hsema : SemaInv init s) (hpc : s.pc t = .releasing l) :
    LockInv ((s.goto t .outside).raise (.inr l)) := by
  have hown : owns s t l := .inl (by rw [hpc]; rfl)
  have hzero := h.taken l t hown
  obtain ⟨s', hs'⟩ : ∃ s', s' = (s.goto t .outside).raise (.inr l) := ⟨_, rfl⟩
  rw [← hs']
  have hheld : s'.held = s.held := by
    rw [hs']
    exact (raise_held _ _).1
  have hholder : s'.holder = s.holder := by
    rw [hs']
    exact (raise_held _ _).2
  have hlock : ∀ u, (s'.pc u).lock? = if u = t then none else (s.pc u).lock? := by
    intro u
    rw [hs', raise_lock? (hsema.goto (fun y => by simp [hpc]) (fun y => by simp))]
    show (update s.pc t .outside u).lock? = _
    by_cases hu : u = t
    · rw [hu, update_self, if_pos rfl]
      rfl
    · rw [update_of_ne hu, if_neg hu]
  have hvalue : ∀ k, (s'.sema (.inr k)).value = if k = l then 1 else (s.sema (.inr k)).value := by
    intro k
    rw [hs', raise_value]
    by_cases hk : k = l
    · rw [if_pos (by rw [hk]), if_pos hk]
      show (s.sema (.inr l)).value + 1 = 1
      rw [hzero]
      rfl
    · rw [if_neg (by simp [hk]), if_neg hk]
      rfl
  -- the thread was the only owner, and is none any more
  have howns : ∀ u k, owns s' u k → owns s u k ∧ k ≠ l := by
    rintro u k hu
    have hu' : owns s u k ∧ (u = t → s.held t k = true) := by
      rcases hu with hu | hu
      · rw [hlock] at hu
        split at hu
        · cases hu
        · exact ⟨.inl hu, fun he => absurd he ‹_›⟩
      · rw [hheld] at hu
        exact ⟨.inr hu, fun he => he ▸ hu⟩
    refine ⟨hu'.1, fun hk => ?_⟩
    rw [hk] at hu'
    have hut := h.unique l u t hu'.1 hown
    have hfalse := h.busy l t (by rw [hpc]; rfl)
    rw [hu'.2 hut] at hfalse
    cases hfalse
  refine ⟨fun k u u' hu hu' => h.unique k u u' (howns u k hu).1 (howns u' k hu').1, fun k u hu => ?_,
    fun k => ?_, fun k u => ?_, fun k u hu => ?_⟩
  · rw [hvalue, if_neg (howns u k hu).2]
    exact h.taken k u (howns u k hu).1
  · rw [hvalue]
    split
    · exact Nat.le_refl 1
    · exact h.le_one k
  · rw [hholder, hheld]
    exact h.holder k u
  · rw [hlock] at hu
    rw [hheld]
    split at hu
    · cases hu
    · exact h.busy k u hu

theorem Effect.lockInv {a : Act σ κ} (he : Effect s t a s') (hsema : SemaInv init s) (h : LockInv s) :
    LockInv s' := by
  cases he with
  | down x hpc => exact h.neutral (fun _ => rfl) (lock?_update (by rw [hpc]; rfl)) rfl rfl
  | acquire l hpc _ => exact h.neutral (fun _ => rfl) (lock?_update (by rw [hpc]; rfl)) rfl rfl
  | test x hpc =>
    have hnone : (s.pc t).lock? = none := by
      rcases hpc with hpc | hpc <;> rw [hpc] <;> rfl
    by_cases hv : (s.sema x).value = 0
    · rw [testDown_zero hv]
      exact h.neutral (fun l => value_update_waiters ..) (lock?_update hnone.symm) rfl rfl
    · rw [testDown_pos hv]
      cases x with
      | inl x =>
        exact h.neutral (value_update_inl s.sema x
          { s.sema (.inl x) with value := (s.sema (.inl x)).value - 1 }) (lock?_update hnone.symm) rfl rfl
      | inr l => exact h.take hnone hv
  | tryDown x hv =>
    exact h.neutral (value_update_inl s.sema x
          { s.sema (.inl x) with value := (s.sema (.inl x)).value - 1 }) (fun _ => rfl) rfl rfl
  | tryAcquire l hpc _ hv => exact h.take (by rw [hpc]; rfl) hv
  | setHolder l hpc => exact h.setHolder hpc
  | up x =>
    refine h.neutral (fun l => ?_) (raise_lock? hsema _) (raise_held s _).1 (raise_held s _).2
    rw [raise_value, if_neg (by simp)]
  | release l hpc hholder => exact h.release hholder
  | releaseUp l hpc => exact h.releaseUp hsema hpc
  | _ => exact h

end

/-! ## Runs -/

def initialValue (init : σ → UInt32) : σ ⊕ κ → UInt32 := Sum.elim init fun _ => 1

structure Safe (init : σ → UInt32) (s : State τ σ κ) : Prop where
  /-- No unit is taken twice. -/
  counted : ∀ x, s.downs x ≤ (initialValue init x).toNat + s.ups x
  exclusive : ∀ l t t', s.held t l = true → s.held t' l = true → t = t'
  /-- The assertion in `lock_release` holds for the holder, so the call goes on. -/
  asserted : ∀ l t, s.held t l = true → s.holder l = some t
  /-- While a thread waits, every unit that is left has a thread that was woken for it. -/
  awake : ∀ x, (s.sema x).waiters ≠ [] → Woken s.pc x (s.sema x).value.toNat

theorem start_semaInv (init : σ → UInt32) :
    SemaInv (initialValue init) (start init : State τ σ κ) := by
  intro x
  have hsema : (start init : State τ σ κ).sema x = semaInit (initialValue init x) := by
    cases x <;> rfl
  rw [hsema]
  refine ⟨Nat.le_refl _, fun t => ?_, nodup_nil, fun hne => absurd rfl hne⟩
  exact iff_of_false (by simp [semaInit]) (by simp [start])

theorem start_lockInv (init : σ → UInt32) : LockInv (start init : State τ σ κ) := by
  have hnone : ∀ t l, ¬ owns (start init : State τ σ κ) t l := by
    rintro t l (h | h) <;> cases h
  refine ⟨fun l t t' ht => absurd ht (hnone t l), fun l t ht => absurd ht (hnone t l),
    fun l => Nat.le_refl 1, fun l t => ?_, fun l t _ => rfl⟩
  exact iff_of_false (by simp [start]) (by simp [start])

variable [DecidableEq τ] [DecidableEq σ] [DecidableEq κ]

/-- **Locks exclude and no wake-up is lost**, in every state of every interleaving. -/
theorem locks_exclude_and_no_wakeup_is_lost {init : σ → UInt32} {as : List (τ × Act σ κ)}
    {s : State τ σ κ} (hrun : Run step (fun _ _ => True) (start init) as s) : Safe init s := by
  have hinv : SemaInv (initialValue init) s ∧ LockInv s := by
    refine hrun.invariant (I := fun s => SemaInv (initialValue init) s ∧ LockInv s) ?_
      ⟨start_semaInv init, start_lockInv init⟩
    rintro s ⟨t, a⟩ s' ⟨hsema, hlock⟩ - hstep
    have he := effect_of_step hstep
    exact ⟨he.semaInv hsema, he.lockInv hsema hlock⟩
  obtain ⟨hsema, hlock⟩ := hinv
  refine ⟨fun x => ?_, fun l t t' ht ht' => hlock.unique l t t' (.inr ht) (.inr ht'),
    fun l t ht => (hlock.holder l t).mpr ht, fun x => (hsema x).awake⟩
  have := (hsema x).counted
  omega

/-- Thread 0 takes the lock, thread 1 has to wait, is woken and takes it. -/
theorem locks_exclude_and_no_wakeup_is_lost_two_threads :
    ∃ s : State (Fin 2) (Fin 1) (Fin 1), Run step (fun _ _ => True) (start fun _ => 0)
        [(0, .acquire 0), (0, .test), (0, .setHolder), (1, .acquire 0), (1, .test),
          (0, .release 0), (0, .releaseUp), (1, .test), (1, .setHolder)] s ∧
      s.held 1 0 = true ∧ Safe (fun _ => 0) s := by
  exact Run.exists_guarded (fun s => s.held 1 0 = true) (by decide +kernel)
    fun s hrun hheld => ⟨hheld, locks_exclude_and_no_wakeup_is_lost hrun⟩

end Pintos.Threads
