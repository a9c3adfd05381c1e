import Pintos.Lib.Ring
import Pintos.Threads.Synch

/-!
# Interrupt queues (`devices/intq.c`)

A circular buffer of `INTQ_BUFSIZE` bytes between kernel threads and interrupt handlers.
All its functions run with interrupts off. This module has the queue itself: what
`intq_getc` and `intq_putc` do once they need not wait. The waiting is in `IntqWait`.

`head` and `tail` are C integers; the model keeps them as such, and that they stay
inside the buffer is part of the result. `Calls` remembers what was put and taken.
-/

namespace Pintos.Devices

open Lib Threads List

variable {τ : Type}

/-! ## The queue -/

def INTQ_BUFSIZE : Nat := 64

structure Lock (τ : Type) where
  holder : Option τ
  semaphore : Semaphore τ

def lockInit : Lock τ := ⟨none, semaInit 1⟩

structure Intq (τ : Type) where
  lock : Lock τ
  notFull : Option τ
  notEmpty : Option τ
  buf : Arr 64 UInt8
  head : Int
  tail : Int

def intqInit (buf : Arr 64 UInt8) : Intq τ where
  lock := lockInit
  notFull := none
  notEmpty := none
  buf := buf
  head := 0
  tail := 0

def next (pos : Int) : Int := (pos + 1).tmod INTQ_BUFSIZE

namespace Intq

def intqEmpty (q : Intq τ) : Bool := q.head = q.tail

def intqFull (q : Intq τ) : Bool := next q.head = q.tail

def signalNotFull (q : Intq τ) : Option (Option τ × Intq τ) :=
  -- ASSERT (!intq_full (q))
  if q.intqFull then none else some (q.notFull, { q with notFull := none })

def signalNotEmpty (q : Intq τ) : Option (Option τ × Intq τ) :=
  -- ASSERT (!intq_empty (q))
  if q.intqEmpty then none else some (q.notEmpty, { q with notEmpty := none })

/-- `intq_getc`, after its loop: the byte, and the thread that is unblocked. -/
def getByte (q : Intq τ) : Option (UInt8 × Option τ × Intq τ) :=
  let byte := q.buf.get q.tail.toNat
  ({ q with tail := next q.tail }.signalNotFull).map fun r => (byte, r)

/-- `intq_putc`, after its loop: the thread that is unblocked. -/
def putByte (q : Intq τ) (byte : UInt8) : Option (Option τ × Intq τ) :=
  { q with buf := q.buf.set q.head.toNat byte, head := next q.head }.signalNotEmpty

end Intq

/-! ## What is in it -/

/-- The bytes after the first `got` of those that were put are in the queue. -/
structure Stores (q : Intq τ) (put : List UInt8) (got : Nat) : Prop where
  ring : Ring q.buf put got
  head : q.head = (put.length % 64 : Nat)
  tail : q.tail = (got % 64 : Nat)

theorem next_mod (k : Nat) : next ((k % 64 : Nat) : Int) = ((k + 1) % 64 : Nat) := by
  have hnat : ((k % 64 : Nat) : Int) + 1 = ((k % 64 + 1 : Nat) : Int) := by push_cast; rfl
  rw [next, INTQ_BUFSIZE, hnat, Int.tmod_eq_emod_of_nonneg (Int.natCast_nonneg _), ← Int.natCast_emod]
  omega

section
variable {q : Intq τ} {put : List UInt8} {got : Nat}

theorem stores_init (buf : Arr 64 UInt8) : Stores (intqInit buf : Intq τ) [] 0 :=
  ⟨ring_nil buf, rfl, rfl⟩

variable (h : Stores q put got)
include h

theorem Stores.intqEmpty_iff : q.intqEmpty = true ↔ put.length = got := by
  rw [Intq.intqEmpty, decide_eq_true_eq, h.head, h.tail, Int.natCast_inj, h.ring.empty_iff]

theorem Stores.intqFull_iff : q.intqFull = true ↔ put.length = got + 63 := by
  rw [Intq.intqFull, decide_eq_true_eq, h.head, h.tail, next_mod, Int.natCast_inj, h.ring.full_iff]

/-- **A byte is taken** from a queue that is not empty; then the queue is not full. -/
theorem Stores.getByte (hne : q.intqEmpty = false) :
    ∃ byte q', q.getByte = some (byte, q.notFull, q') ∧ put[got]? = some byte ∧ Stores q' put (got + 1) ∧
      q'.notFull = none ∧ q'.notEmpty = q.notEmpty ∧ q'.lock = q.lock := by
  have hlen : put.length ≠ got := fun he => Bool.false_ne_true (hne.symm.trans (h.intqEmpty_iff.mpr he))
  obtain ⟨hring, hbyte⟩ := h.ring.dequeue hlen
  have hstores : Stores { q with tail := next q.tail } put (got + 1) :=
    ⟨hring, h.head, by rw [h.tail]; exact next_mod got⟩
  have hroom : ({ q with tail := next q.tail } : Intq τ).intqFull = false := by
    rw [Bool.eq_false_iff, Ne, hstores.intqFull_iff]
    have := h.ring.room
    omega
  refine ⟨q.buf.get (got % 64), { q with tail := next q.tail, notFull := none }, ?_, hbyte,
    ⟨hring, h.head, hstores.tail⟩, rfl, rfl, rfl⟩
  unfold Intq.getByte Intq.signalNotFull
  rw [hroom, h.tail, Int.toNat_natCast]
  rfl

/-- **A byte is put** into a queue that is not full; then the queue is not empty. -/
theorem Stores.putByte (hroom : q.intqFull = false) (byte : UInt8) :
    ∃ q', q.putByte byte = some (q.notEmpty, q') ∧ Stores q' (put ++ [byte]) got ∧
      q'.notEmpty = none ∧ q'.notFull = q.notFull ∧ q'.lock = q.lock := by
  have hlen : put.length ≠ got + 63 := fun he =>
    Bool.false_ne_true (hroom.symm.trans (h.intqFull_iff.mpr he))
  have hhead : q.head.toNat = put.length % 64 := by rw [h.head, Int.toNat_natCast]
  have hring := h.ring.enqueue hlen byte
  have hstores : Stores { q with buf := q.buf.set q.head.toNat byte, head := next q.head }
      (put ++ [byte]) got := by
    refine ⟨by rw [hhead]; exact hring, ?_, h.tail⟩
    rw [length_append, length_singleton]
    show next q.head = _
    rw [h.head]
    exact next_mod put.length
  have hne : ({ q with buf := q.buf.set q.head.toNat byte, head := next q.head } : Intq τ).intqEmpty = false := by
    rw [Bool.eq_false_iff, Ne, hstores.intqEmpty_iff, length_append, length_singleton]
    have := h.ring.le
    omega
  refine ⟨{ q with buf := q.buf.set q.head.toNat byte, head := next q.head, notEmpty := none }, ?_,
    { hstores with }, rfl, rfl, rfl⟩
  unfold Intq.putByte Intq.signalNotEmpty
  rw [hne]
  rfl

end

/-! ## Sequences of calls -/

/-- A queue that nobody waits for, what was put and what the calls have returned. -/
structure Calls where
  queue : Intq Empty
  put : List UInt8
  got : List UInt8

inductive IntqCall where
  | getc
  | putc (byte : UInt8)
deriving DecidableEq

def Calls.start (buf : Arr 64 UInt8) : Calls := ⟨intqInit buf, [], []⟩

def Calls.step (s : Calls) : IntqCall → Option Calls
  | .getc =>
    if s.queue.intqEmpty then none
    else s.queue.getByte.map fun (byte, _, q) => { s with queue := q, got := s.got ++ [byte] }
  | .putc byte =>
    if s.queue.intqFull then none
    else (s.queue.putByte byte).map fun (_, q) => { s with queue := q, put := s.put ++ [byte] }

/-- What was taken is the first of what was put. -/
structure Fifo (s : Calls) : Prop where
  stores : Stores s.queue s.put s.got.length
  order : s.got <+: s.put

theorem Fifo.getc {s : Calls} (h : Fifo s) (hne : s.queue.intqEmpty = false) :
    ∃ byte q, s.step .getc = some ⟨q, s.put, s.got ++ [byte]⟩ ∧
      s.put[s.got.length]? = some byte ∧ Fifo ⟨q, s.put, s.got ++ [byte]⟩ := by
  obtain ⟨byte, q, hget, hbyte, hstores, -⟩ := h.stores.getByte hne
  refine ⟨byte, q, ?_, hbyte, ⟨?_, ?_⟩⟩
  · rw [Calls.step, hne, hget]
    rfl
  · show Stores q s.put (s.got ++ [byte]).length
    rw [length_append, length_singleton]
    exact hstores
  · -- the byte after the prefix that was taken
    obtain ⟨rest, hrest⟩ := h.order
    show s.got ++ [byte] <+: s.put
    rw [← hrest] at hbyte ⊢
    rw [getElem?_append_right le_rfl, Nat.sub_self] at hbyte
    cases rest with
    | nil => cases hbyte
    | cons first rest =>
      cases hbyte
      exact ⟨rest, by rw [append_assoc]; rfl⟩

theorem Fifo.putc {s : Calls} (h : Fifo s) (hroom : s.queue.intqFull = false) (byte : UInt8) :
    ∃ q, s.step (.putc byte) = some ⟨q, s.put ++ [byte], s.got⟩ ∧ Fifo ⟨q, s.put ++ [byte], s.got⟩ := by
  obtain ⟨q, hput, hstores, -⟩ := h.stores.putByte hroom byte
  refine ⟨q, ?_, hstores, h.order.trans (prefix_append s.put [byte])⟩
  rw [Calls.step, hroom, hput]
  rfl

theorem Fifo.step {s s' : Calls} (h : Fifo s) {a : IntqCall} (hs : s.step a = some s') : Fifo s' := by
  cases a with
  | getc =>
    cases hne : s.queue.intqEmpty with
    | true => simp [Calls.step, hne] at hs
    | false =>
      obtain ⟨byte, q, hstep, -, hfifo⟩ := h.getc hne
      cases Option.some.inj (hstep.symm.trans hs)
      exact hfifo
  | putc byte =>
    cases hroom : s.queue.intqFull with
    | true => simp [Calls.step, hroom] at hs
    | false =>
      obtain ⟨q, hstep, hfifo⟩ := h.putc hroom byte
      cases Option.some.inj (hstep.symm.trans hs)
      exact hfifo

/-- **The interrupt queue is a bounded FIFO**: the bytes that have been taken are the first
of those that were put, in their order; the queue says that it is empty when all have
been taken, and full when `INTQ_BUFSIZE - 1` have not; and the next call returns the
byte that is next, or adds one, if it need not wait. -/
theorem interrupt_queue_is_fifo {buf : Arr 64 UInt8} {as : List IntqCall} {s : Calls}
    (hrun : Run Calls.step (fun _ _ => True) (Calls.start buf) as s) :
    s.got <+: s.put ∧ (s.queue.intqEmpty = true ↔ s.got.length = s.put.length) ∧
      (s.queue.intqFull = true ↔ s.put.length - s.got.length = INTQ_BUFSIZE - 1) ∧
      (0 ≤ s.queue.head ∧ s.queue.head ≤ INTQ_BUFSIZE - 1) ∧
      (0 ≤ s.queue.tail ∧ s.queue.tail ≤ INTQ_BUFSIZE - 1) ∧
      (s.queue.intqEmpty = false → ∃ byte q, s.step .getc = some ⟨q, s.put, s.got ++ [byte]⟩ ∧
        s.put[s.got.length]? = some byte) ∧
      ∀ byte, s.queue.intqFull = false → ∃ q, s.step (.putc byte) = some ⟨q, s.put ++ [byte], s.got⟩ := by
  have h : Fifo s := hrun.invariant (fun _ _ _ h _ hs => Fifo.step h hs) ⟨stores_init buf, prefix_rfl⟩
  have hle := h.stores.ring.le
  refine ⟨h.order, ?_, ?_, ?_, ?_, fun hne => ?_, fun byte hroom => ?_⟩
  · rw [h.stores.intqEmpty_iff]
    exact eq_comm
  · rw [h.stores.intqFull_iff, INTQ_BUFSIZE]
    omega
  · rw [h.stores.head, INTQ_BUFSIZE]
    omega
  · rw [h.stores.tail, INTQ_BUFSIZE]
    omega
  · obtain ⟨byte, q, hstep, hbyte, -⟩ := h.getc hne
    exact ⟨byte, q, hstep, hbyte⟩
  · obtain ⟨q, hstep, -⟩ := h.putc hroom byte
    exact ⟨q, hstep⟩

/-- Two bytes are put and one is taken. -/
theorem interrupt_queue_is_fifo_two_bytes : ∃ s : Calls,
    Run Calls.step (fun _ _ => True) (Calls.start (Arr.const 0)) [.putc 7, .putc 9, .getc] s ∧
    s.got = [7] ∧ s.got <+: s.put := by
  exact Run.exists_guarded (fun s => s.got = [7]) (by decide +kernel)
    fun s hrun hgot => ⟨hgot, (interrupt_queue_is_fifo hrun).1⟩

end Pintos.Devices
