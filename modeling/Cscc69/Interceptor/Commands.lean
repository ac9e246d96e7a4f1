import Cscc69.Interceptor.Table
import Cscc69.Lib.Runs

/-!
# `my_syscall`, the interceptor, loading and unloading

`my_syscall` first checks its arguments and the caller's permissions (`requestError`, which reads
no state of the module) and then carries out one of four commands. A command on syscall `n`
touches only slot `n` of `sys_call_table` and entry `n` of `table`; `Effect` lists what the four
commands can do to the two, and `mySyscall_cases` says that this is all a request can do. Every
invariant below is read off `Effect`, not off the code again.

The module as a whole is a step function on events: requests, exiting processes and intercepted
calls, each taken as one step.
-/

namespace Cscc69.Interceptor

variable {κ : Type*}

/-! ## Callers -/

/-- The process table as one request sees it: `current`, and the owner (`real_cred->uid`) of
every pid that belongs to a live process. -/
structure Caller where
  pid : Int
  /-- `current_uid()` -/
  uid : ℕ
  owner : Int → Option ℕ
  current_alive : (owner pid).isSome

/-- `-EPERM` unless two pids have the same owner. Both belong to live processes wherever the
function is called. -/
def checkPidFromList (c : Caller) (pid₁ pid₂ : Int) : Int :=
  if c.owner pid₁ ≠ c.owner pid₂ then -eperm else 0

/-- The basic checks of `my_syscall`, in its order: the error a request is refused with. -/
def requestError (K : Kernel) (c : Caller) (cmd syscall pid : Int) : Option Int :=
  if cmd ≠ requestSyscallIntercept ∧ cmd ≠ requestSyscallRelease ∧
      cmd ≠ requestStartMonitoring ∧ cmd ≠ requestStopMonitoring then some (-einval)
  else if syscall = myCustomSyscall ∨ syscall < 0 ∨ syscall > K.nrSyscalls then some (-einval)
  else if cmd = requestSyscallIntercept ∨ cmd = requestSyscallRelease then
    if c.uid ≠ 0 then some (-eperm) else none
  else if pid < 0 ∨ (pid > 0 ∧ c.owner pid = none) then some (-einval)
  else if c.uid ≠ 0 then
    if pid ≠ 0 then
      if checkPidFromList c pid c.pid ≠ 0 then some (-eperm) else none
    else some (-eperm)
  else none

/-! ## The four commands -/

def intercept (n : ℕ) (s : State κ) : Int × State κ :=
  if (s.table n).intercepted = 1 then (-ebusy, s)
  else
    let s := s.lockCalltable
    let s := s.setEntry n { s.table n with f := s.sysCallTable n, intercepted := 1 }
    let s := s.setSlot n (some .interceptor)
    (0, s.unlockCalltable)

def release (n : ℕ) (s : State κ) : Int × State κ :=
  if (s.table n).intercepted = 0 then (-einval, s)
  else
    let s := s.lockCalltable
    let s := s.setSlot n (s.table n).f
    let s := s.setEntry n { s.table n with intercepted := 0 }
    (0, s.unlockCalltable)

def startMonitoring (kmalloc : Bool) (n : ℕ) (pid : Int) (s : State κ) : Int × State κ :=
  if pid ≠ 0 then
    let s := s.lockPidlist.lockCalltable
    if checkPidMonitored n pid s = 1 then (-ebusy, s.unlockCalltable.unlockPidlist)
    else
      let s := s.unlockPidlist
      let s := if (s.table n).monitored = 0 then s.setEntry n { s.table n with monitored := 1 }
        else s
      let s := s.lockPidlist
      let r := addPidSysc kmalloc pid n s
      (r.1, r.2.unlockPidlist.unlockCalltable)
  else
    let s := s.lockCalltable
    if (s.table n).monitored = 2 ∨ (s.table n).monitored = 1 then (-ebusy, s.unlockCalltable)
    else (0, (s.setEntry n { s.table n with monitored := 2 }).unlockCalltable)

def stopMonitoring (n : ℕ) (pid : Int) (s : State κ) : Int × State κ :=
  let s := s.lockCalltable
  if (s.table n).intercepted = 0 then (-einval, s.unlockCalltable)
  else
    let s := s.unlockCalltable
    if pid ≠ 0 then
      let s := s.lockPidlist.lockCalltable
      if checkPidMonitored n pid s = 0 then (-einval, s.unlockCalltable.unlockPidlist)
      else
        let s := s.unlockPidlist
        -- the flag falls to 1 from 2, and to 0 from anything else
        let s := if (s.table n).monitored = 2 then s.setEntry n { s.table n with monitored := 1 }
          else s.setEntry n { s.table n with monitored := 0 }
        let s := s.lockPidlist
        let r := delPidSysc pid n s
        (r.1, r.2.unlockCalltable.unlockPidlist)
    else
      let s := s.lockCalltable
      if (s.table n).monitored = 2 then (0, (destroyList n s).unlockCalltable)
      else (-einval, s.unlockCalltable)

/-- The system call the module installs in slot `MY_CUSTOM_SYSCALL`: the value returned and the
state afterwards. `kmalloc` says whether an allocation on the way succeeds. -/
def mySyscall (K : Kernel) (c : Caller) (kmalloc : Bool) (cmd syscall pid : Int) (s : State κ) :
    Int × State κ :=
  match requestError K c cmd syscall pid with
  | some err => (err, s)
  | none =>
    let n := syscall.toNat
    if cmd = requestSyscallIntercept then intercept n s
    else if cmd = requestSyscallRelease then release n s
    else if cmd = requestStartMonitoring then startMonitoring kmalloc n pid s
    else stopMonitoring n pid s

/-! ## The other entry points -/

/-- Whether `interceptor` logs a call of `n` by `pid`. -/
def Logs (s : State κ) (n : ℕ) (pid : Int) : Prop :=
  checkPidMonitored n pid s = 1 ∨ (s.table n).monitored = 2

instance (s : State κ) (n : ℕ) (pid : Int) : Decidable (Logs s n pid) := by
  unfold Logs; infer_instance

theorem logs_iff {s : State κ} {n : ℕ} {pid : Int} :
    Logs s n pid ↔ pid ∈ (s.table n).myList ∨ (s.table n).monitored = 2 := by
  simp [Logs]

/-- `interceptor` up to its last call: whether the call is logged, the saved handler it goes on
to, and the state. -/
def interceptor (pid : Int) (n : ℕ) (s : State κ) : Bool × Option (Handler κ) × State κ :=
  (decide (Logs s n pid), (s.table n).f, s.setEntry n { s.table n with intercepted := 1 })

/-- `my_exit_group` up to its call of the original. -/
def myExitGroup (K : Kernel) (pid : Int) (s : State κ) : State κ :=
  (delPid K pid s.lockPidlist).2.unlockPidlist

/-- `init_function`: hijack the two system calls and fill in entries `1 … NR_syscalls`. -/
def initFunction (K : Kernel) (s : State κ) : State κ :=
  let s := s.lockCalltable
  let s := { s with
    origCustomSyscall := s.sysCallTable myCustomSyscall,
    origExitGroup := s.sysCallTable K.nrExitGroup }
  let s := s.setSlot myCustomSyscall (some .mySyscall)
  let s := s.setSlot K.nrExitGroup (some .myExitGroup)
  let s := s.lockPidlist
  let filled := fun n =>
    if 1 ≤ n ∧ n < K.nrSyscalls + 1 then
      { s.table n with intercepted := 0, monitored := 0, listcount := 0, myList := [] }
    else s.table n
  { s with table := filled }.unlockPidlist.unlockCalltable

/-- `exit_function`, run by `c`: release what is intercepted among `0 … NR_syscalls - 1`, then
put the two hijacked system calls back. -/
def exitFunction (K : Kernel) (c : Caller) (s : State κ) : State κ :=
  let s := s.lockCalltable
  let s := (List.range K.nrSyscalls).foldl (fun s (index : ℕ) =>
    if (s.table index).intercepted = 1 then
      (mySyscall K c true requestSyscallRelease index index s).2
    else s) s
  let s := s.setSlot myCustomSyscall s.origCustomSyscall
  let s := s.setSlot K.nrExitGroup s.origExitGroup
  s.unlockCalltable

/-! ## The module as a system -/

inductive Event
  /-- a call of `my_syscall` -/
  | request (c : Caller) (kmalloc : Bool) (cmd syscall pid : Int)
  /-- process `pid` calls `exit_group` -/
  | exitGroup (pid : Int)
  /-- process `pid` makes system call `n` -/
  | call (pid : Int) (n : ℕ)

/-- One event. A system call runs module code only if its slot holds `interceptor`. -/
def step (K : Kernel) (s : State κ) : Event → State κ
  | .request c kmalloc cmd syscall pid => (mySyscall K c kmalloc cmd syscall pid s).2
  | .exitGroup pid => myExitGroup K pid s
  | .call pid n =>
    match s.sysCallTable n with
    | some .interceptor => (interceptor pid n s).2.2
    | _ => s

/-- The state right after the module has been loaded. -/
def loaded (K : Kernel) (handlers : ℕ → κ) : State κ := initFunction K (.boot handlers)

/-- The states of the loaded module. -/
def Reachable (K : Kernel) (handlers : ℕ → κ) (s : State κ) : Prop :=
  Lts.Reachable (Lts.ofFun (step K)) (loaded K handlers) s

end Cscc69.Interceptor
