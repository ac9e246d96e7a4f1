import Mathlib.Data.List.Basic
import Mathlib.Logic.Function.Basic
import Mathlib.Algebra.Order.Ring.Int
import Mathlib.Tactic.Common

/-!
# The interceptor's bookkeeping

The kernel module keeps one `mytable` entry for each system call number, next to the kernel's own
`sys_call_table`. This file has the data and the module's list operations: adding a pid to the
list of one system call, taking it out of one or of all lists, and clearing a list.

The lists are the kernel's doubly linked lists, read from the head: `list_add` puts a pid in
front, `list_del` takes one node out. The two spinlocks are the flags that say whether they are
held; a lock that is asked for is granted. The page protection that `set_addr_rw` and
`set_addr_ro` switch is left out: every write to the table stands between the two.
-/

namespace Cscc69.Interceptor

/-! ## Constants -/

def requestSyscallIntercept : Int := 1
def requestSyscallRelease : Int := 2
def requestStartMonitoring : Int := 3
def requestStopMonitoring : Int := 4

def myCustomSyscall : ℕ := 0

/-- The error numbers of the kernel headers. -/
def eperm : Int := 1
def enomem : Int := 12
def ebusy : Int := 16
def einval : Int := 22

/-- The two numbers the module takes from the kernel headers. -/
structure Kernel where
  nrSyscalls : ℕ
  nrExitGroup : ℕ
  exitGroup_pos : 0 < nrExitGroup
  exitGroup_lt : nrExitGroup < nrSyscalls

/-! ## State -/

variable {κ : Type*}

/-- What a slot of the system call table can hold: a handler of the kernel or one of the
module's own functions. -/
inductive Handler (κ : Type*)
  | kernel (h : κ)
  | mySyscall
  | myExitGroup
  | interceptor
  deriving DecidableEq

/-- One entry of `table`. A null `f` is `none`. -/
structure Mytable (κ : Type*) where
  f : Option (Handler κ)
  intercepted : Int
  monitored : Int
  listcount : Int
  myList : List Int

/-- A static entry, before `init_function` has filled it in. -/
def Mytable.zero : Mytable κ := ⟨none, 0, 0, 0, []⟩

structure State (κ : Type*) where
  sysCallTable : ℕ → Option (Handler κ)
  table : ℕ → Mytable κ
  origCustomSyscall : Option (Handler κ)
  origExitGroup : Option (Handler κ)
  calltableLock : Bool
  pidlistLock : Bool

namespace State

/-- The machine before the module is loaded: every slot holds a handler of the kernel. -/
def boot (handlers : ℕ → κ) : State κ :=
  ⟨fun n => some (.kernel (handlers n)), fun _ => .zero, none, none, false, false⟩

def setSlot (s : State κ) (n : ℕ) (h : Option (Handler κ)) : State κ :=
  { s with sysCallTable := Function.update s.sysCallTable n h }

def setEntry (s : State κ) (n : ℕ) (e : Mytable κ) : State κ :=
  { s with table := Function.update s.table n e }

def lockCalltable (s : State κ) : State κ := { s with calltableLock := true }
def unlockCalltable (s : State κ) : State κ := { s with calltableLock := false }
def lockPidlist (s : State κ) : State κ := { s with pidlistLock := true }
def unlockPidlist (s : State κ) : State κ := { s with pidlistLock := false }

/-- The two handlers saved at load time. -/
def origs (s : State κ) : Option (Handler κ) × Option (Handler κ) :=
  (s.origCustomSyscall, s.origExitGroup)

@[simp] theorem setSlot_table (s : State κ) (n h) : (s.setSlot n h).table = s.table := rfl
@[simp] theorem setSlot_sysCallTable (s : State κ) (n h) :
    (s.setSlot n h).sysCallTable = Function.update s.sysCallTable n h := rfl
@[simp] theorem setEntry_sysCallTable (s : State κ) (n e) :
    (s.setEntry n e).sysCallTable = s.sysCallTable := rfl
@[simp] theorem setEntry_table (s : State κ) (n e) :
    (s.setEntry n e).table = Function.update s.table n e := rfl
@[simp] theorem setEntry_origs (s : State κ) (n e) : (s.setEntry n e).origs = s.origs := rfl
@[simp] theorem lockCalltable_table (s : State κ) : s.lockCalltable.table = s.table := rfl
@[simp] theorem unlockCalltable_table (s : State κ) : s.unlockCalltable.table = s.table := rfl
@[simp] theorem lockPidlist_table (s : State κ) : s.lockPidlist.table = s.table := rfl
@[simp] theorem unlockPidlist_table (s : State κ) : s.unlockPidlist.table = s.table := rfl
@[simp] theorem lockCalltable_sysCallTable (s : State κ) :
    s.lockCalltable.sysCallTable = s.sysCallTable := rfl
@[simp] theorem unlockCalltable_sysCallTable (s : State κ) :
    s.unlockCalltable.sysCallTable = s.sysCallTable := rfl
@[simp] theorem lockPidlist_sysCallTable (s : State κ) :
    s.lockPidlist.sysCallTable = s.sysCallTable := rfl
@[simp] theorem unlockPidlist_sysCallTable (s : State κ) :
    s.unlockPidlist.sysCallTable = s.sysCallTable := rfl

@[simp] theorem lockCalltable_origs (s : State κ) : s.lockCalltable.origs = s.origs := rfl
@[simp] theorem unlockCalltable_origs (s : State κ) : s.unlockCalltable.origs = s.origs := rfl
@[simp] theorem lockPidlist_origs (s : State κ) : s.lockPidlist.origs = s.origs := rfl
@[simp] theorem unlockPidlist_origs (s : State κ) : s.unlockPidlist.origs = s.origs := rfl

end State

/-! ## List operations -/

/-- `list_del` of the first node of `pid`, with the counter and the flag that follow it. The flag
falls only if it was 1: a syscall monitored for all pids stays so. -/
def Mytable.unlink (pid : Int) (e : Mytable κ) : Mytable κ :=
  let e := { e with myList := e.myList.erase pid, listcount := e.listcount - 1 }
  if e.listcount = 0 ∧ e.monitored = 1 then { e with monitored := 0 } else e

/-- Add a pid to a system call's list. `kmalloc` says whether the node could be allocated. -/
def addPidSysc (kmalloc : Bool) (pid : Int) (sysc : ℕ) (s : State κ) : Int × State κ :=
  if !kmalloc then (-enomem, s)
  else
    let e := s.table sysc
    (0, s.setEntry sysc { e with myList := pid :: e.myList, listcount := e.listcount + 1 })

/-- Take a pid out of a system call's list. The loop stops at its first node. -/
def delPidSysc (pid : Int) (sysc : ℕ) (s : State κ) : Int × State κ :=
  if pid ∈ (s.table sysc).myList then (0, s.setEntry sysc ((s.table sysc).unlink pid))
  else (-einval, s)

/-- The inner loop of `del_pid`: over the nodes of one list, unlinking those of `pid`. -/
def Mytable.delPid (pid : Int) (e : Mytable κ) : Mytable κ :=
  e.myList.foldl (fun e q => if q = pid then e.unlink pid else e) e

/-- Take a pid out of the lists of the system calls `1 … NR_syscalls - 1`. -/
def delPid (K : Kernel) (pid : Int) (s : State κ) : Int × State κ :=
  let syscs := List.range' 1 (K.nrSyscalls - 1)
  let ispid := syscs.any fun n => pid ∈ (s.table n).myList
  (if ispid then 0 else -1, syscs.foldl (fun s n => s.setEntry n ((s.table n).delPid pid)) s)

/-- Clear the list of a system call. -/
def destroyList (sysc : ℕ) (s : State κ) : State κ :=
  s.setEntry sysc { s.table sysc with myList := [], listcount := 0, monitored := 0 }

/-- Whether a pid is in a system call's list: 1 if it is, 0 if not. -/
def checkPidMonitored (sysc : ℕ) (pid : Int) (s : State κ) : Int :=
  if pid ∈ (s.table sysc).myList then 1 else 0

@[simp] theorem checkPidMonitored_eq_one {sysc : ℕ} {pid : Int} {s : State κ} :
    checkPidMonitored sysc pid s = 1 ↔ pid ∈ (s.table sysc).myList := by
  simp [checkPidMonitored]

@[simp] theorem checkPidMonitored_eq_zero {sysc : ℕ} {pid : Int} {s : State κ} :
    checkPidMonitored sysc pid s = 0 ↔ pid ∉ (s.table sysc).myList := by
  simp [checkPidMonitored]

/-! ## What the list operations do to an entry -/

@[simp] theorem Mytable.unlink_f (pid : Int) (e : Mytable κ) : (e.unlink pid).f = e.f := by
  unfold Mytable.unlink; dsimp only; split <;> rfl

@[simp] theorem Mytable.unlink_intercepted (pid : Int) (e : Mytable κ) :
    (e.unlink pid).intercepted = e.intercepted := by
  unfold Mytable.unlink; dsimp only; split <;> rfl

@[simp] theorem Mytable.unlink_myList (pid : Int) (e : Mytable κ) :
    (e.unlink pid).myList = e.myList.erase pid := by
  unfold Mytable.unlink; dsimp only; split <;> rfl

@[simp] theorem Mytable.unlink_listcount (pid : Int) (e : Mytable κ) :
    (e.unlink pid).listcount = e.listcount - 1 := by
  unfold Mytable.unlink; dsimp only; split <;> rfl

theorem Mytable.unlink_monitored (pid : Int) (e : Mytable κ) :
    (e.unlink pid).monitored =
      if e.listcount - 1 = 0 ∧ e.monitored = 1 then 0 else e.monitored := by
  unfold Mytable.unlink; dsimp only; split <;> rfl

/-- Unlinking never starts or stops the monitoring of all pids. -/
theorem Mytable.unlink_monitored_eq_two (pid : Int) (e : Mytable κ) :
    (e.unlink pid).monitored = 2 ↔ e.monitored = 2 := by
  rw [unlink_monitored]; split <;> omega

/-- On a list without duplicates the inner loop of `del_pid` unlinks at most one node. -/
theorem Mytable.delPid_of_nodup (pid : Int) {e : Mytable κ} (hnd : e.myList.Nodup) :
    e.delPid pid = if pid ∈ e.myList then e.unlink pid else e := by
  have skip : ∀ (l : List Int) (e : Mytable κ), pid ∉ l →
      l.foldl (fun e q => if q = pid then e.unlink pid else e) e = e := by
    intro l
    induction l with
    | nil => intro e _; rfl
    | cons q l ih =>
      intro e hl
      rw [List.mem_cons, not_or] at hl
      rw [List.foldl_cons, if_neg (Ne.symm hl.1)]
      exact ih e hl.2
  have key : ∀ (l : List Int) (e : Mytable κ), l.Nodup →
      l.foldl (fun e q => if q = pid then e.unlink pid else e) e =
        if pid ∈ l then e.unlink pid else e := by
    intro l
    induction l with
    | nil => intro e _; simp
    | cons q l ih =>
      intro e hl
      rw [List.nodup_cons] at hl
      rw [List.foldl_cons]
      by_cases hq : q = pid
      · subst hq
        rw [if_pos rfl, skip l _ hl.1, if_pos List.mem_cons_self]
      · rw [if_neg hq, ih e hl.2]
        simp [Ne.symm hq]
  exact key e.myList e hnd

theorem Mytable.delPid_f (pid : Int) {e : Mytable κ} (hnd : e.myList.Nodup) :
    (e.delPid pid).f = e.f := by
  rw [delPid_of_nodup pid hnd]
  split
  · exact unlink_f pid e
  · rfl

theorem Mytable.delPid_intercepted (pid : Int) {e : Mytable κ} (hnd : e.myList.Nodup) :
    (e.delPid pid).intercepted = e.intercepted := by
  rw [delPid_of_nodup pid hnd]
  split
  · exact unlink_intercepted pid e
  · rfl

/-- The outer loop of `del_pid` treats the entries one by one. -/
theorem delPid_table (K : Kernel) (pid : Int) (s : State κ) (n : ℕ) :
    ((delPid K pid s).2.table n) =
      if 1 ≤ n ∧ n < K.nrSyscalls then (s.table n).delPid pid else s.table n := by
  have key : ∀ (l : List ℕ), l.Nodup → ∀ s : State κ,
      (l.foldl (fun s n => s.setEntry n ((s.table n).delPid pid)) s).table n =
        if n ∈ l then (s.table n).delPid pid else s.table n := by
    intro l
    induction l with
    | nil => intro _ s; simp
    | cons m l ih =>
      intro hl s
      rw [List.nodup_cons] at hl
      rw [List.foldl_cons, ih hl.2]
      by_cases hnm : n = m
      · subst hnm; simp [hl.1]
      · simp [hnm]
  have hpos : 1 + (K.nrSyscalls - 1) = K.nrSyscalls := by
    have := K.exitGroup_lt; omega
  have hmem : n ∈ List.range' 1 (K.nrSyscalls - 1) ↔ 1 ≤ n ∧ n < K.nrSyscalls := by
    rw [List.mem_range'_1, hpos]
  show (List.foldl _ s _).table n = _
  rw [key _ List.nodup_range' s]
  simp only [hmem]

@[simp] theorem delPid_sysCallTable (K : Kernel) (pid : Int) (s : State κ) :
    (delPid K pid s).2.sysCallTable = s.sysCallTable := by
  unfold delPid
  generalize List.range' 1 (K.nrSyscalls - 1) = l
  induction l generalizing s with
  | nil => rfl
  | cons m l ih => exact ih (s.setEntry m _)

@[simp] theorem delPid_origs (K : Kernel) (pid : Int) (s : State κ) :
    (delPid K pid s).2.origs = s.origs := by
  unfold delPid
  generalize List.range' 1 (K.nrSyscalls - 1) = l
  induction l generalizing s with
  | nil => rfl
  | cons m l ih => exact ih (s.setEntry m _)

end Cscc69.Interceptor
