import Pintos.UserProg.Process
import Pintos.Lib.Run

/-!
# How a user process ends (`userprog/exception.c`, `userprog/syscall.c`)

A user process enters the kernel by a system call, by a page fault or by another
exception. The handlers either return to it or end it, some through `exit`, which
sets `exit_status`, and some straight through `thread_exit`, which does not. What
has not been set is 0, the value `init_thread` has left there.
-/

namespace Pintos.UserProg

open Lib

/-! ## Ending the running thread -/

/-- How a handler leaves the thread that was running. -/
inductive Outcome where
  | resumes (t : Thread)
  | ends (t : Thread)
  | panics
  | halts

/-- `thread_exit` up to the point in `process_exit` where the parent can go on. -/
def threadExit (t : Thread) : Outcome :=
  .ends { t with isExited := true, semaWait := t.semaWait + 1 }

/-- `exit`. It returns to its caller if the thread is exiting already. -/
def exit (status : Int) (t : Thread) : Outcome :=
  let t := { t with exitStatus := status }
  if t.isExited then .resumes t else threadExit t

/-- Go on with `next` where `exit` has returned. -/
def exitThen (status : Int) (t : Thread) (next : Thread → Outcome) : Outcome :=
  match exit status t with
  | .resumes t => next t
  | o => o

/-! ## Exceptions -/

def SEL_UCSEG : UInt16 := 0x1B
def SEL_KCSEG : UInt16 := 0x08

def PHYS_BASE : UInt32 := 0xc0000000

def isUserVaddr (vaddr : UInt32) : Bool := vaddr < PHYS_BASE
def isKernelVaddr (vaddr : UInt32) : Bool := vaddr ≥ PHYS_BASE

def pgRoundDown (va : UInt32) : UInt32 := va &&& ~~~0xfff

structure IntrFrame where
  cs : UInt16
  errorCode : UInt32
  esp : UInt32

def kill (f : IntrFrame) (t : Thread) : Outcome :=
  if f.cs = SEL_UCSEG then threadExit t
  else if f.cs = SEL_KCSEG then .panics
  else threadExit t

def PF_P : UInt32 := 0x1
def LIMIT : UInt32 := 8388608
def SIZE : UInt32 := 32

/-- The page addresses of the supplemental page table, and whether `page_handling`
and `grow_stack` succeed for a page. -/
structure Memory where
  supPageTable : List UInt32
  pageHandling : UInt32 → Bool
  growStack : UInt32 → Bool

def findPage (m : Memory) (addr : UInt32) : Option UInt32 :=
  m.supPageTable.find? fun userVaddr => userVaddr = pgRoundDown addr

def pageFault (m : Memory) (f : IntrFrame) (faultAddr : UInt32) (t : Thread) : Outcome :=
  let notPresent := f.errorCode &&& PF_P = 0
  if isUserVaddr faultAddr ∧ notPresent then
    match findPage m faultAddr with
    | some page => if m.pageHandling page then .resumes t else kill f t
    | none =>
      if PHYS_BASE - pgRoundDown faultAddr > LIMIT then exitThen (-1) t .resumes
      else if faultAddr ≥ f.esp - SIZE then
        if m.growStack (pgRoundDown faultAddr) then .resumes t else kill f t
      else exitThen (-1) t .resumes
  else exitThen (-1) t .resumes

/-! ## System calls -/

inductive SysCall where
  | halt | exit | exec | wait | create | remove | open | filesize | read | write | seek | tell
  | close | mmap | munmap | chdir | mkdir | readdir | isdir | inumber
deriving DecidableEq

def SysCall.ofNumber (n : UInt32) : Option SysCall :=
  [.halt, .exit, .exec, .wait, .create, .remove, .open, .filesize, .read, .write, .seek, .tell,
    .close, .mmap, .munmap, .chdir, .mkdir, .readdir, .isdir, .inumber][n.toNat]?

/-- How many words the handler takes from the stack. -/
def SysCall.argc : SysCall → Nat
  | .halt => 0
  | .create | .seek | .mmap | .readdir => 2
  | .read | .write => 3
  | _ => 1

/-- The calls after which the handler ends the process if the result is -1. -/
def SysCall.exitsOnError : SysCall → Bool
  | .create | .remove | .filesize | .seek | .tell => true
  | _ => false

/-- What the function behind a system call does: it returns, it calls `exit (-1)`, or
it fails an assertion. -/
inductive Served where
  | value (result : Int)
  | exits
  | fails

/-- The user memory the handler reads, and what the function behind a call does with
its arguments. -/
structure Kernel where
  word : UInt32 → UInt32
  serve : SysCall → List UInt32 → Served

def STACK_BOTTOM : UInt32 := 0x08048000

def pArgv (addr : UInt32) (t : Thread) (next : Thread → Outcome) : Outcome :=
  let checked := fun t : Thread =>
    if !isUserVaddr addr || addr < STACK_BOTTOM then exitThen (-1) t next else next t
  if addr = 0 then exitThen (-1) t checked else checked t

/-- Take the remaining arguments, the next one at `addr`. -/
def pArgvs (kernel : Kernel) (next : List UInt32 → Thread → Outcome) :
    Nat → UInt32 → List UInt32 → Thread → Outcome
  | 0, _, args, t => next args t
  | n + 1, addr, args, t =>
    pArgv addr t fun t => pArgvs kernel next n (addr + 4) (args ++ [kernel.word addr]) t

/-- `(int) argv0`. -/
def toInt (w : UInt32) : Int := w.toBitVec.toInt

def finish (kernel : Kernel) (call : SysCall) (args : List UInt32) (t : Thread) : Outcome :=
  match call with
  | .halt => .halts
  | .exit => exitThen (toInt (args.headD 0)) t .resumes
  | call =>
    match kernel.serve call args with
    | .value result =>
      if call.exitsOnError && result = -1 then exitThen (-1) t .resumes else .resumes t
    | .exits => exitThen (-1) t .resumes
    | .fails => .panics

def syscallHandler (kernel : Kernel) (f : IntrFrame) (t : Thread) : Outcome :=
  if isKernelVaddr f.esp then threadExit t
  else if t.isExited then .resumes t
  else
    match SysCall.ofNumber (kernel.word f.esp) with
    | none => .panics
    | some call => pArgvs kernel (finish kernel call) call.argc (f.esp + 4) [] t

/-! ## The life of a process -/

/-- A way into the kernel, with what the handler finds there. -/
inductive Trap where
  | exception (f : IntrFrame)
  | pageFault (m : Memory) (f : IntrFrame) (faultAddr : UInt32)
  | syscall (kernel : Kernel) (f : IntrFrame)

def handle : Trap → Thread → Outcome
  | .exception f, t => kill f t
  | .pageFault m f faultAddr, t => pageFault m f faultAddr t
  | .syscall kernel f, t => syscallHandler kernel f t

def resume (t : Thread) (trap : Trap) : Option Thread :=
  match handle trap t with
  | .resumes t => some t
  | _ => none

def goodPointer (addr : UInt32) : Bool := addr ≠ 0 && isUserVaddr addr && !(addr < STACK_BOTTOM)

/-- What the parent should get: the argument of `exit` if the process has called it,
-1 in every other case. -/
def due : Trap → Int
  | .syscall kernel f =>
    if isUserVaddr f.esp && SysCall.ofNumber (kernel.word f.esp) = some .exit &&
      goodPointer (f.esp + 4) then toInt (kernel.word (f.esp + 4)) else -1
  | _ => -1

/-- The traps whose handler does not leave it to `kill` or to `thread_exit` alone to
end the process. -/
def throughExit : Trap → Bool
  | .exception _ => false
  | .pageFault m f faultAddr =>
    !isUserVaddr faultAddr || f.errorCode &&& PF_P ≠ 0 ||
      match findPage m faultAddr with
      | some page => m.pageHandling page
      | none => PHYS_BASE - pgRoundDown faultAddr > LIMIT || faultAddr < f.esp - SIZE ||
          m.growStack (pgRoundDown faultAddr)
  | .syscall _ f => isUserVaddr f.esp

/-! ## What a running process leaves behind -/

def Thread.ended (t : Thread) (status : Int) : Thread :=
  { t with exitStatus := status, isExited := true, semaWait := t.semaWait + 1 }

section
variable {t t' : Thread}

variable (h : t.isExited = false)
include h

theorem exitThen_running (status : Int) (next : Thread → Outcome) :
    exitThen status t next = .ends (t.ended status) := by
  simp [exitThen, exit, h, threadExit, Thread.ended]

/-- A handler called for the thread returns to it unchanged or ends it with `status`,
if it does not stop the machine. -/
inductive Fate (t : Thread) (status : Int) : Outcome → Prop
  | resumes : Fate t status (.resumes t)
  | ends : Fate t status (.ends (t.ended status))
  | panics : Fate t status .panics
  | halts : Fate t status .halts

theorem Fate.exitThen (status : Int) (next : Thread → Outcome) :
    Fate t status (exitThen status t next) := by
  rw [exitThen_running h]
  exact .ends

omit h in
theorem Fate.kill (f : IntrFrame) : Fate t t.exitStatus (kill f t) := by
  unfold UserProg.kill
  split
  · exact .ends
  · split
    · exact .panics
    · exact .ends

theorem pArgv_running (addr : UInt32) (next : Thread → Outcome) :
    pArgv addr t next = if goodPointer addr then next t else .ends (t.ended (-1)) := by
  unfold pArgv goodPointer
  by_cases h0 : addr = 0
  · simp [h0, exitThen_running h]
  · by_cases hu : isUserVaddr addr = true
    · by_cases hb : addr < STACK_BOTTOM <;> simp [h0, hu, hb, exitThen_running h]
    · simp [h0, hu, exitThen_running h]

theorem Fate.pArgvs (kernel : Kernel) {next : List UInt32 → Thread → Outcome}
    (hnext : ∀ args, Fate t (-1) (next args t)) (n : Nat) (addr : UInt32) (args : List UInt32) :
    Fate t (-1) (pArgvs kernel next n addr args t) := by
  induction n generalizing addr args with
  | zero => exact hnext args
  | succ n ih =>
    rw [UserProg.pArgvs, pArgv_running h]
    split
    · exact ih ..
    · exact .ends

/-- A system call other than `exit` ends the process with -1 or not at all. -/
theorem Fate.finish (kernel : Kernel) {call : SysCall} (hcall : call ≠ .exit) (args : List UInt32) :
    Fate t (-1) (finish kernel call args t) := by
  have hserve : Fate t (-1) (match kernel.serve call args with
      | .value result =>
        if call.exitsOnError && result = -1 then UserProg.exitThen (-1) t .resumes
        else .resumes t
      | .exits => UserProg.exitThen (-1) t .resumes
      | .fails => .panics) := by
    split
    · split
      · exact .exitThen h ..
      · exact .resumes
    · exact .exitThen h ..
    · exact .panics
  cases call with
  | exit => exact absurd rfl hcall
  | halt => exact .halts
  | _ => exact hserve

omit h in
theorem due_of_not_throughExit {trap : Trap} (h : throughExit trap = false) : due trap = -1 := by
  cases trap with
  | syscall kernel f =>
    simp only [throughExit] at h
    simp [due, h]
  | _ => rfl

theorem pageFault_fate (m : Memory) (f : IntrFrame) (faultAddr : UInt32) :
    Fate t (if throughExit (.pageFault m f faultAddr) then -1 else t.exitStatus)
      (pageFault m f faultAddr t) := by
  unfold pageFault throughExit
  by_cases huser : isUserVaddr faultAddr = true ∧ f.errorCode &&& PF_P = 0
  · rw [if_pos huser]
    simp only [huser.1, huser.2, Bool.not_true, ne_eq, not_true_eq_false, decide_false,
      Bool.false_or]
    cases findPage m faultAddr with
    | some page =>
      dsimp only
      by_cases hp : m.pageHandling page = true
      · rw [if_pos hp, if_pos hp]
        exact .resumes
      · rw [if_neg hp, if_neg hp]
        exact .kill f
    | none =>
      dsimp only
      by_cases hlimit : PHYS_BASE - pgRoundDown faultAddr > LIMIT
      · rw [if_pos hlimit, decide_eq_true hlimit]
        exact .exitThen h ..
      · rw [if_neg hlimit, decide_eq_false hlimit]
        by_cases hesp : faultAddr ≥ f.esp - SIZE
        · rw [if_pos hesp, decide_eq_false (UInt32.not_lt.mpr hesp), Bool.false_or, Bool.false_or]
          by_cases hg : m.growStack (pgRoundDown faultAddr) = true
          · rw [if_pos hg, if_pos hg]
            exact .resumes
          · rw [if_neg hg, if_neg hg]
            exact .kill f
        · rw [if_neg hesp, decide_eq_true (UInt32.not_le.mp hesp)]
          exact .exitThen h ..
  · rw [if_neg huser, if_pos]
    · exact .exitThen h ..
    · by_cases hu : isUserVaddr faultAddr = true
      · have hp : ¬ f.errorCode &&& PF_P = 0 := fun hp => huser ⟨hu, hp⟩
        simp [hp]
      · simp [hu]

theorem syscallHandler_fate (kernel : Kernel) (f : IntrFrame) :
    Fate t (if throughExit (.syscall kernel f) then due (.syscall kernel f) else t.exitStatus)
      (syscallHandler kernel f t) := by
  have hflip : isKernelVaddr f.esp = !isUserVaddr f.esp := by
    unfold isKernelVaddr isUserVaddr
    rw [← decide_not]
    exact decide_eq_decide.mpr UInt32.not_lt.symm
  unfold syscallHandler
  rw [hflip]
  by_cases hu : isUserVaddr f.esp = true
  · have hthrough : throughExit (.syscall kernel f) = true := hu
    rw [if_pos hthrough, if_neg (by simp [hu]), if_neg (by simp [h])]
    cases hn : SysCall.ofNumber (kernel.word f.esp) with
    | none => exact .panics
    | some call =>
      by_cases hcall : call = .exit
      · subst hcall
        show Fate t _ (pArgv (f.esp + 4) t fun t => finish kernel .exit _ t)
        rw [pArgv_running h]
        split
        · rename_i hgood
          have hdue : due (.syscall kernel f) = toInt (kernel.word (f.esp + 4)) := by
            simp [due, hu, hn, hgood]
          rw [hdue]
          exact .exitThen h ..
        · rename_i hbad
          have hdue : due (.syscall kernel f) = -1 := by
            simp [due, hbad]
          rw [hdue]
          exact .ends
      · have hdue : due (.syscall kernel f) = -1 := by
          simp [due, hn, hcall]
        rw [hdue]
        exact .pArgvs h kernel (fun args => .finish h kernel hcall args) ..
  · have hthrough : ¬ throughExit (.syscall kernel f) = true := hu
    rw [if_neg hthrough, if_pos (by simp [hu])]
    exact .ends

/-- **What every handler does to a running thread**: it returns to it, or ends it
with the status that is due where it goes through `exit`, and with the status the
thread had where it does not. -/
theorem handle_fate (trap : Trap) :
    Fate t (if throughExit trap then due trap else t.exitStatus) (handle trap t) := by
  cases trap with
  | exception f => exact .kill f
  | pageFault m f faultAddr => exact pageFault_fate h m f faultAddr
  | syscall kernel f => exact syscallHandler_fate h kernel f

end

/-- A process that has not ended is as `start_process` has left it. -/
theorem running_of_run {tid : Int} {traps : List Trap} {t : Thread}
    (hrun : Run resume (fun _ _ => True) (runningChild tid) traps t) : t = runningChild tid := by
  refine hrun.invariant (I := fun t => t = runningChild tid) ?_ rfl
  rintro _ trap s' rfl - hstep
  unfold resume at hstep
  split at hstep
  · rename_i s hs
    cases hstep
    have hfate := handle_fate (t := runningChild tid) rfl trap
    rw [hs] at hfate
    cases hfate
    rfl
  · cases hstep

/-- **The status a process reports.** After any number of traps it has come back
from, a process ends in the handler of one more. When its parent goes on in
`process_wait`, that returns the argument of `exit` if the process has called it and
-1 otherwise, if and only if the handler goes through `exit`. -/
theorem reported_status_iff {tid : Int} {traps : List Trap} {t t' : Thread} {trap : Trap}
    (hrun : Run resume (fun _ _ => True) (runningChild tid) traps t)
    (hend : handle trap t = .ends t') {p : Process} {k : Nat}
    (hk : p.listChildren[k]? = some t') :
    (∃ q c, resumeWait p k tid = some (due trap, q, c)) ↔ throughExit trap = true := by
  have ht := running_of_run hrun
  subst ht
  have hfate := handle_fate (t := runningChild tid) rfl trap
  rw [hend] at hfate
  cases hfate
  obtain ⟨q, hq, -⟩ := resumeWait_of_loaded tid hk rfl rfl (Nat.succ_pos 0)
  rw [hq]
  cases hthrough : throughExit trap with
  | true => exact iff_of_true ⟨q, _, rfl⟩ rfl
  | false =>
    -- the status is still the 0 of `init_thread`
    refine iff_of_false ?_ (by simp)
    rintro ⟨q', c, h⟩
    rw [due_of_not_throughExit hthrough] at h
    simp [runningChild, Thread.ended] at h

def exitFortyTwo : Trap :=
  .syscall ⟨fun a => if a = 0x0804a000 then 1 else 42, fun _ _ => .value 0⟩ ⟨SEL_UCSEG, 0, 0x0804a000⟩

def divideError : Trap := .exception ⟨SEL_UCSEG, 0, 0x0804a000⟩

def parentOf (status : Int) : Process where
  listChildren := [(runningChild 3).ended status]
  waited := []
  nodup := by simp
  valid := by simp [runningChild, Thread.ended, TID_ERROR]
  gone := by simp

/-- The parent of a process that calls `exit (42)` gets 42. -/
theorem reported_status_iff_exit_call :
    handle exitFortyTwo (runningChild 3) = .ends ((runningChild 3).ended 42) ∧
      ∃ q c, resumeWait (parentOf 42) 0 3 = some (42, q, c) := by
  have hend : handle exitFortyTwo (runningChild 3) = .ends ((runningChild 3).ended 42) := rfl
  exact ⟨hend, (reported_status_iff (.nil) hend (p := parentOf 42) (k := 0) rfl).mpr (by decide)⟩

/-- The parent of a process that divides by zero gets 0. -/
theorem divide_error_reports_zero :
    handle divideError (runningChild 3) = .ends ((runningChild 3).ended 0) ∧
      due divideError = -1 ∧ ∃ q c, resumeWait (parentOf 0) 0 3 = some (0, q, c) := by
  obtain ⟨q, hq, -⟩ := resumeWait_of_loaded 3 (p := parentOf 0) (k := 0)
    (c := (runningChild 3).ended 0) rfl rfl rfl (Nat.succ_pos 0)
  exact ⟨rfl, rfl, q, _, hq⟩

end Pintos.UserProg
