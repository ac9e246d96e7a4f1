import Cscc69.Interceptor.Monitoring
import Cscc69.Lib.Spinlocks

/-!
# The two spinlocks

The entry points of the module as programs that take and release `calltable_lock` and
`pidlist_lock` (`mySyscallProg`, `myExitGroupProg`, `exitFunctionProg`). Run alone, with every lock
granted, they are the functions of before (`mySyscallProg_alone` and its companions); here any
number of them is interleaved at the lock operations.

All programs follow one protocol (`spinning`). It shows where things can go wrong. START and STOP
for a single pid take `pidlist_lock` first, but release it and take it again while they hold
`calltable_lock`, and another execution can come in between. And `exit_function` holds
`calltable_lock` when it calls `my_syscall`, whose RELEASE takes it once more. Nothing else goes
wrong: a run is free of deadlocks exactly if no step does one of the two (`safe_iff`).
-/

namespace Cscc69.Interceptor

open Spinlocks

variable {κ : Type*} {K : Kernel} {c : Caller} {kmalloc : Bool} {cmd syscall pid : Int} {n : ℕ}

inductive Lock
  | calltable
  | pidlist
  deriving DecidableEq

abbrev LockProg (κ : Type*) := Prog Lock (State κ)

/-! ## The programs -/

def interceptProg (n : ℕ) : LockProg κ Int := do
  if (← .read fun s => (s.table n).intercepted) = 1 then
    return -ebusy
  else
    .take .calltable
    .modify fun s => s.setEntry n { s.table n with f := s.sysCallTable n, intercepted := 1 }
    .modify fun s => s.setSlot n (some .interceptor)
    .release .calltable
    return 0

def releaseProg (n : ℕ) : LockProg κ Int := do
  if (← .read fun s => (s.table n).intercepted) = 0 then
    return -einval
  else
    .take .calltable
    .modify fun s => s.setSlot n (s.table n).f
    .modify fun s => s.setEntry n { s.table n with intercepted := 0 }
    .release .calltable
    return 0

def startMonitoringProg (kmalloc : Bool) (n : ℕ) (pid : Int) : LockProg κ Int :=
  if pid ≠ 0 then do
    .take .pidlist
    .take .calltable
    if (← .read (checkPidMonitored n pid)) = 1 then
      .release .calltable
      .release .pidlist
      return -ebusy
    else
      .release .pidlist
      .modify fun s => if (s.table n).monitored = 0 then
        s.setEntry n { s.table n with monitored := 1 } else s
      .take .pidlist
      let result ← .run (addPidSysc kmalloc pid n)
      .release .pidlist
      .release .calltable
      return result
  else do
    .take .calltable
    let monitored ← .read fun s => (s.table n).monitored
    if monitored = 2 ∨ monitored = 1 then
      .release .calltable
      return -ebusy
    else
      .modify fun s => s.setEntry n { s.table n with monitored := 2 }
      .release .calltable
      return 0

def stopMonitoringProg (n : ℕ) (pid : Int) : LockProg κ Int := do
  .take .calltable
  if (← .read fun s => (s.table n).intercepted) = 0 then
    .release .calltable
    return -einval
  else
    .release .calltable
    if pid ≠ 0 then
      .take .pidlist
      .take .calltable
      if (← .read (checkPidMonitored n pid)) = 0 then
        .release .calltable
        .release .pidlist
        return -einval
      else
        .release .pidlist
        .modify fun s => if (s.table n).monitored = 2 then
            s.setEntry n { s.table n with monitored := 1 }
          else s.setEntry n { s.table n with monitored := 0 }
        .take .pidlist
        let result ← .run (delPidSysc pid n)
        .release .calltable
        .release .pidlist
        return result
    else
      .take .calltable
      if (← .read fun s => (s.table n).monitored) = 2 then
        .modify (destroyList n)
        .release .calltable
        return 0
      else
        .release .calltable
        return -einval

def mySyscallProg (K : Kernel) (c : Caller) (kmalloc : Bool) (cmd syscall pid : Int) :
    LockProg κ Int :=
  match requestError K c cmd syscall pid with
  | some err => return err
  | none =>
    let n := syscall.toNat
    if cmd = requestSyscallIntercept then interceptProg n
    else if cmd = requestSyscallRelease then releaseProg n
    else if cmd = requestStartMonitoring then startMonitoringProg kmalloc n pid
    else stopMonitoringProg n pid

def myExitGroupProg (K : Kernel) (pid : Int) : LockProg κ Unit := do
  .take .pidlist
  .modify fun s => (delPid K pid s).2
  .release .pidlist

/-- The loop of `exit_function`, over the numbers of the list. -/
def releaseLoop (K : Kernel) (c : Caller) : List ℕ → LockProg κ Unit
  | [] => return
  | index :: rest => do
    if (← .read fun s => (s.table index).intercepted) = 1 then
      let _ ← mySyscallProg K c true requestSyscallRelease index index
      releaseLoop K c rest
    else
      releaseLoop K c rest

def exitFunctionProg (K : Kernel) (c : Caller) : LockProg κ Unit := do
  .take .calltable
  releaseLoop K c (List.range K.nrSyscalls)
  .modify fun s => s.setSlot myCustomSyscall s.origCustomSyscall
  .modify fun s => s.setSlot K.nrExitGroup s.origExitGroup
  .release .calltable

/-! ## Run alone -/

def onLock : Lock → State κ → State κ
  | .calltable => State.lockCalltable
  | .pidlist => State.lockPidlist

def onUnlock : Lock → State κ → State κ
  | .calltable => State.unlockCalltable
  | .pidlist => State.unlockPidlist

theorem interceptProg_alone (n : ℕ) (s : State κ) :
    (interceptProg n).alone onLock onUnlock s = intercept n s := by
  unfold interceptProg intercept
  by_cases hi : (s.table n).intercepted = 1
  · simp [Prog.read, Prog.bind, Prog.alone, hi]
  · simp [Prog.read, Prog.bind, Prog.alone, hi, Prog.take, Prog.modify, Prog.release, onLock,
      onUnlock]

theorem releaseProg_alone (n : ℕ) (s : State κ) :
    (releaseProg n).alone onLock onUnlock s = release n s := by
  unfold releaseProg release
  by_cases hi : (s.table n).intercepted = 0
  · simp [Prog.read, Prog.bind, Prog.alone, hi]
  · simp [Prog.read, Prog.bind, Prog.alone, hi, Prog.take, Prog.modify, Prog.release, onLock,
      onUnlock]

theorem startMonitoringProg_alone (kmalloc : Bool) (n : ℕ) (pid : Int) (s : State κ) :
    (startMonitoringProg kmalloc n pid).alone onLock onUnlock s =
      startMonitoring kmalloc n pid s := by
  unfold startMonitoringProg startMonitoring
  by_cases hp : pid = 0
  · by_cases hm : (s.table n).monitored = 2 ∨ (s.table n).monitored = 1
    · simp [Prog.read, Prog.bind, Prog.alone, hp, hm, Prog.take, Prog.release, onLock, onUnlock]
    · simp [Prog.read, Prog.bind, Prog.alone, hp, hm, Prog.take, Prog.modify, Prog.release, onLock,
        onUnlock]
  · by_cases hmem : pid ∈ (s.table n).myList
    · simp [Prog.read, Prog.bind, Prog.alone, hp, hmem, Prog.take, Prog.release, onLock, onUnlock]
    · by_cases hm : (s.table n).monitored = 0 <;>
        simp [Prog.read, Prog.bind, Prog.alone, hp, hmem, hm, Prog.take, Prog.modify, Prog.run,
          Prog.release, onLock, onUnlock]

theorem stopMonitoringProg_alone (n : ℕ) (pid : Int) (s : State κ) :
    (stopMonitoringProg n pid).alone onLock onUnlock s = stopMonitoring n pid s := by
  unfold stopMonitoringProg stopMonitoring
  by_cases hi : (s.table n).intercepted = 0
  · simp [Prog.read, Prog.bind, Prog.alone, hi, Prog.take, Prog.release, onLock, onUnlock]
  by_cases hp : pid = 0
  · by_cases hm : (s.table n).monitored = 2 <;>
      simp [Prog.read, Prog.bind, Prog.alone, hi, hp, hm, Prog.take, Prog.modify, Prog.release,
        onLock, onUnlock]
  · by_cases hmem : pid ∈ (s.table n).myList
    · by_cases hm : (s.table n).monitored = 2 <;>
        simp [Prog.read, Prog.bind, Prog.alone, hi, hp, hmem, hm, Prog.take, Prog.modify, Prog.run,
          Prog.release, onLock, onUnlock]
    · simp [Prog.read, Prog.bind, Prog.alone, hi, hp, hmem, Prog.take, Prog.release, onLock,
        onUnlock]

/-- **Alone, the program of `my_syscall` is `my_syscall`.** -/
theorem mySyscallProg_alone (K : Kernel) (c : Caller) (kmalloc : Bool) (cmd syscall pid : Int)
    (s : State κ) :
    (mySyscallProg K c kmalloc cmd syscall pid).alone onLock onUnlock s =
      mySyscall K c kmalloc cmd syscall pid s := by
  unfold mySyscallProg mySyscall
  cases requestError K c cmd syscall pid with
  | some err => rfl
  | none =>
    dsimp only
    split
    · exact interceptProg_alone _ s
    split
    · exact releaseProg_alone _ s
    split
    · exact startMonitoringProg_alone kmalloc _ pid s
    · exact stopMonitoringProg_alone _ pid s

theorem myExitGroupProg_alone (K : Kernel) (pid : Int) (s : State κ) :
    ((myExitGroupProg K pid).alone onLock onUnlock s).2 = myExitGroup K pid s := rfl

theorem releaseLoop_alone (K : Kernel) (c : Caller) (l : List ℕ) (s : State κ) :
    ((releaseLoop K c l).alone onLock onUnlock s).2 =
      l.foldl (fun s (index : ℕ) =>
        if (s.table index).intercepted = 1 then
          (mySyscall K c true requestSyscallRelease index index s).2
        else s) s := by
  induction l generalizing s with
  | nil => rfl
  | cons index rest ih =>
    rw [List.foldl_cons, ← ih, releaseLoop]
    by_cases hi : (s.table index).intercepted = 1
    · simp [Prog.read, Prog.bind, Prog.alone, Prog.alone_bind, hi, mySyscallProg_alone]
    · simp [Prog.read, Prog.bind, Prog.alone, hi]

theorem exitFunctionProg_alone (K : Kernel) (c : Caller) (s : State κ) :
    ((exitFunctionProg K c).alone onLock onUnlock s).2 = exitFunction K c s := by
  unfold exitFunctionProg exitFunction
  simp [Prog.alone_bind, Prog.take, Prog.modify, Prog.release, Prog.alone, releaseLoop_alone,
    onLock, onUnlock]

/-! ## The protocol -/

/-- Where an execution is between its lock operations. -/
inductive Phase
  | idle
  /-- holds `calltable_lock`, to release it -/
  | table
  /-- holds `pidlist_lock` -/
  | pids
  /-- has taken `calltable_lock` after `pidlist_lock` -/
  | both
  /-- has given up `pidlist_lock` only to take it again -/
  | retry
  /-- has taken it again -/
  | again
  /-- `exit_function` before it starts, and after it has taken `calltable_lock` -/
  | unloading
  | releasing

def Phase.holds : Phase → Lock → Prop
  | .idle, _ | .unloading, _ => False
  | .table, l | .retry, l | .releasing, l => l = .calltable
  | .pids, l => l = .pidlist
  | .both, _ | .again, _ => True

inductive Phase.Locks : Phase → Lock → Phase → Prop
  | table : Locks .idle .calltable .table
  | pids : Locks .idle .pidlist .pids
  | both : Locks .pids .calltable .both
  | again : Locks .retry .pidlist .again
  | unload : Locks .unloading .calltable .releasing

inductive Phase.Unlocks : Phase → Lock → Phase → Prop
  | table : Unlocks .table .calltable .idle
  | pids : Unlocks .pids .pidlist .idle
  | both : Unlocks .both .calltable .pids
  | retry : Unlocks .both .pidlist .retry
  | start : Unlocks .again .pidlist .table
  | stop : Unlocks .again .calltable .pids
  | unload : Unlocks .releasing .calltable .idle

theorem Phase.Locks.ne_unloading {φ ψ : Phase} {l : Lock} (h : Phase.Locks φ l ψ) :
    ψ ≠ .unloading := by
  cases h <;> exact Phase.noConfusion

theorem Phase.Unlocks.ne_unloading {φ ψ : Phase} {l : Lock} (h : Phase.Unlocks φ l ψ) :
    ψ ≠ .unloading := by
  cases h <;> exact Phase.noConfusion

/-- The protocol of the two locks. Only `exit_function` asks for a lock that it holds. -/
def spinning : Protocol Lock Phase where
  holds := Phase.holds
  relocks φ l := φ = .releasing ∧ l = .calltable
  lock := Phase.Locks
  unlock := Phase.Unlocks
  relocks_holds h := by
    obtain ⟨rfl, rfl⟩ := h
    exact rfl
  lock_not_holds h := by
    cases h <;> simp [Phase.holds]
  lock_holds h m := by
    cases h <;> cases m <;> simp [Phase.holds]
  unlock_held h := by
    cases h <;> simp [Phase.holds]
  unlock_holds h m := by
    cases h <;> cases m <;> simp [Phase.holds]

theorem interceptProg_follows (n : ℕ) :
    spinning.Follows (· = .idle) .idle (interceptProg n : LockProg κ Int) := by
  intro s
  simp only [Prog.bind]
  split
  · exact rfl
  · exact .inr ⟨_, .table, fun _ _ => ⟨_, .table, rfl⟩⟩

theorem releaseProg_follows (n : ℕ) :
    spinning.Follows (· = .idle) .idle (releaseProg n : LockProg κ Int) := by
  intro s
  simp only [Prog.bind]
  split
  · exact rfl
  · exact .inr ⟨_, .table, fun _ _ => ⟨_, .table, rfl⟩⟩

theorem startMonitoringProg_follows (kmalloc : Bool) (n : ℕ) (pid : Int) :
    spinning.Follows (· = .idle) .idle (startMonitoringProg kmalloc n pid : LockProg κ Int) := by
  unfold startMonitoringProg
  split
  · refine .inr ⟨_, .pids, .inr ⟨_, .both, fun s => ?_⟩⟩
    simp only [Prog.bind]
    split
    · exact ⟨_, .both, _, .pids, rfl⟩
    · exact ⟨_, .retry, fun _ => .inr ⟨_, .again, fun _ => ⟨_, .start, _, .table, rfl⟩⟩⟩
  · refine .inr ⟨_, .table, fun s => ?_⟩
    simp only [Prog.bind]
    split
    · exact ⟨_, .table, rfl⟩
    · exact fun _ => ⟨_, .table, rfl⟩

theorem stopMonitoringProg_follows (n : ℕ) (pid : Int) :
    spinning.Follows (· = .idle) .idle (stopMonitoringProg n pid : LockProg κ Int) := by
  refine .inr ⟨_, .table, fun s => ?_⟩
  simp only [Prog.bind]
  split
  · exact ⟨_, .table, rfl⟩
  refine ⟨_, .table, ?_⟩
  split
  · refine .inr ⟨_, .pids, .inr ⟨_, .both, fun s => ?_⟩⟩
    simp only [Prog.bind]
    split
    · exact ⟨_, .both, _, .pids, rfl⟩
    · exact ⟨_, .retry, fun _ => .inr ⟨_, .again, fun _ => ⟨_, .stop, _, .pids, rfl⟩⟩⟩
  · refine .inr ⟨_, .table, fun s => ?_⟩
    simp only [Prog.bind]
    split
    · exact fun _ => ⟨_, .table, rfl⟩
    · exact ⟨_, .table, rfl⟩

theorem mySyscallProg_follows (K : Kernel) (c : Caller) (kmalloc : Bool) (cmd syscall pid : Int) :
    spinning.Follows (· = .idle) .idle
      (mySyscallProg K c kmalloc cmd syscall pid : LockProg κ Int) := by
  unfold mySyscallProg
  cases requestError K c cmd syscall pid with
  | some err => exact rfl
  | none =>
    dsimp only
    split
    · exact interceptProg_follows _
    split
    · exact releaseProg_follows _
    split
    · exact startMonitoringProg_follows kmalloc _ pid
    · exact stopMonitoringProg_follows _ pid

theorem myExitGroupProg_follows (K : Kernel) (pid : Int) :
    spinning.Follows (· = .idle) .idle (myExitGroupProg K pid : LockProg κ Unit) :=
  .inr ⟨_, .pids, fun _ => ⟨_, .pids, rfl⟩⟩

/-! ## `exit_function` -/

theorem requestError_release (index : ℕ) :
    requestError K c requestSyscallRelease index index = none ↔
      (0 < index ∧ index ≤ K.nrSyscalls) ∧ c.uid = 0 := by
  rw [requestError_table (.inr rfl), Accepted]
  omega

/-- Under `calltable_lock`, the program of a RELEASE comes back with the lock or asks for it. -/
theorem mySyscallProg_release_follows (K : Kernel) (c : Caller) (index : ℕ) :
    spinning.Follows (· = .releasing) .releasing
      (mySyscallProg K c true requestSyscallRelease index index : LockProg κ Int) := by
  unfold mySyscallProg
  cases requestError K c requestSyscallRelease index index with
  | some err => exact rfl
  | none =>
    intro s
    simp only [Prog.bind]
    split
    · exact rfl
    · exact .inl ⟨rfl, rfl⟩

theorem releaseLoop_follows (K : Kernel) (c : Caller) (l : List ℕ) :
    spinning.Follows (· = .releasing) .releasing (releaseLoop K c l : LockProg κ Unit) := by
  induction l with
  | nil => exact rfl
  | cons index rest ih =>
    intro s
    simp only [Prog.bind]
    split
    · refine (mySyscallProg_release_follows K c index).bind fun ψ _ hψ => ?_
      rw [hψ]
      exact ih
    · exact ih

/-- `exit_function` after it has taken `calltable_lock`. -/
def exitFunctionBody (K : Kernel) (c : Caller) : LockProg κ Unit :=
  (releaseLoop K c (List.range K.nrSyscalls)).bind fun _ => do
    .modify fun s => s.setSlot myCustomSyscall s.origCustomSyscall
    .modify fun s => s.setSlot K.nrExitGroup s.origExitGroup
    .release .calltable

theorem exitFunctionProg_eq (K : Kernel) (c : Caller) :
    (exitFunctionProg K c : LockProg κ Unit) = .lock .calltable (exitFunctionBody K c) := rfl

theorem exitFunctionProg_follows (K : Kernel) (c : Caller) :
    spinning.Follows (· = .idle) .unloading (exitFunctionProg K c : LockProg κ Unit) := by
  refine .inr ⟨_, .unload, (releaseLoop_follows K c _).bind fun ψ _ hψ => ?_⟩
  rw [hψ]
  exact fun _ _ => ⟨_, .unload, rfl⟩

/-- The loop comes to a nested RELEASE just if root unloads and some number is intercepted. -/
theorem releaseLoop_settle (l : List ℕ) (g : Unit → LockProg κ Unit)
    (hg : ∀ s k, ((g ()).settle s).2 ≠ .lock .calltable k) (s : State κ) :
    (∃ k, (((releaseLoop K c l).bind g).settle s).2 = .lock .calltable k) ↔
      c.uid = 0 ∧ ∃ index ∈ l, (0 < index ∧ index ≤ K.nrSyscalls) ∧
        (s.table index).intercepted = 1 := by
  induction l with
  | nil =>
    refine iff_of_false ?_ (by simp)
    intro hex
    obtain ⟨k, hk⟩ := hex
    exact hg s k hk
  | cons index rest ih =>
    have hstep : ((releaseLoop K c (index :: rest)).bind g).settle s =
        ((if (s.table index).intercepted = 1 then
          ((mySyscallProg K c true requestSyscallRelease index index).bind fun _ =>
            releaseLoop K c rest) else releaseLoop K c rest).bind g).settle s := rfl
    rw [hstep]
    by_cases hi : (s.table index).intercepted = 1
    · rw [if_pos hi, mySyscallProg]
      cases herr : requestError K c requestSyscallRelease index index with
      | some err =>
        have hnone : ¬ ((0 < index ∧ index ≤ K.nrSyscalls) ∧ c.uid = 0) := by
          rw [← requestError_release, herr]
          exact Option.some_ne_none err
        refine Iff.trans ih ?_
        simp only [List.mem_cons, exists_eq_or_imp]
        constructor
        · exact fun h => ⟨h.1, .inr h.2⟩
        · intro h
          exact ⟨h.1, h.2.resolve_left fun hin => hnone ⟨hin.1, h.1⟩⟩
      | none =>
        have hacc := (requestError_release index).1 herr
        refine iff_of_true ?_ ⟨hacc.2, index, List.mem_cons_self, hacc.1, hi⟩
        have hi0 : (s.table index).intercepted ≠ 0 := by
          rw [hi]
          decide
        simp [requestSyscallRelease, requestSyscallIntercept, releaseProg, Prog.bind, Prog.read,
          Prog.take, Prog.settle, hi0]
    · rw [if_neg hi, ih]
      simp [hi]

theorem exitFunctionBody_settle (s : State κ) :
    (∃ k, ((exitFunctionBody K c).settle s).2 = .lock .calltable k) ↔
      c.uid = 0 ∧ ∃ index, 0 < index ∧ index < K.nrSyscalls ∧
        (s.table index).intercepted = 1 := by
  rw [exitFunctionBody, releaseLoop_settle _ _ fun s k => by simp [Prog.modify, Prog.bind,
    Prog.release, Prog.settle]]
  simp only [List.mem_range]
  constructor
  · intro h
    obtain ⟨hroot, index, hlt, ⟨hpos, -⟩, hi⟩ := h
    exact ⟨hroot, index, hpos, hlt, hi⟩
  · intro h
    obtain ⟨hroot, index, hpos, hlt, hi⟩ := h
    exact ⟨hroot, index, hlt, ⟨hpos, hlt.le⟩, hi⟩

/-! ## Interleavings -/

/-- Executions are numbered, and `none` is that of `exit_function`, of which there is one. -/
abbrev LockConfig (κ : Type*) := Config (Option ℕ) Lock (State κ)

inductive Starts (K : Kernel) : Option ℕ → LockProg κ Unit → Prop
  | request (i : ℕ) (c : Caller) (kmalloc : Bool) (cmd syscall pid : Int) :
      Starts K (some i) ((mySyscallProg K c kmalloc cmd syscall pid).bind fun _ => .pure ())
  | exitGroup (i : ℕ) (pid : Int) : Starts K (some i) (myExitGroupProg K pid)
  | unload (c : Caller) : Starts K none (exitFunctionProg K c)

/-- The phases before anything starts. -/
def startPhase : Option ℕ → Phase
  | none => .unloading
  | some _ => .idle

theorem Starts.follows {i : Option ℕ} {p : LockProg κ Unit} (h : Starts K i p) :
    spinning.Follows (fun ψ => ∀ l, ¬ spinning.holds ψ l) (startPhase i) p := by
  have hidle : ∀ ψ, ψ = Phase.idle → ∀ l, ¬ spinning.holds ψ l := by
    intro ψ hψ l
    rw [hψ]
    exact not_false
  cases h with
  | request i c kmalloc cmd syscall pid =>
    exact (mySyscallProg_follows K c kmalloc cmd syscall pid).bind fun ψ _ => hidle ψ
  | exitGroup i pid => exact (myExitGroupProg_follows K pid).mono hidle
  | unload c => exact (exitFunctionProg_follows K c).mono hidle

/-- The phases fit, and `exit_function` is at its start in the phase that says so. -/
structure LockInv (K : Kernel) (c : LockConfig κ) (φ : Option ℕ → Phase) : Prop where
  orderly : Orderly spinning (Starts K) c φ
  unloading : ∀ i, φ i = .unloading →
    i = none ∧ ∀ p, c.prog i = some p → ∃ caller, p = exitFunctionProg K caller

theorem lockInv_initial (K : Kernel) (s : State κ) : LockInv K (.initial s) startPhase where
  orderly := by
    refine .initial (fun i l => ?_) fun i p => Starts.follows
    cases i <;> exact not_false
  unloading i hi := by
    cases i with
    | none => exact ⟨rfl, fun p hp => by cases hp⟩
    | some i => cases hi

variable {cf cf' : LockConfig κ} {φ : Option ℕ → Phase}

/-- Where an operation leads, `exit_function` is no longer at its start. -/
theorem LockInv.goOn {i : Option ℕ} {k : LockProg κ Unit} {ψ : Phase} (h : LockInv K cf φ)
    (hψ : ψ ≠ .unloading) (l : Lock) (o : Option (Option ℕ))
    (ho : Orderly spinning (Starts K) ((cf.setOwner l o).goOn i k) (Function.update φ i ψ)) :
    LockInv K ((cf.setOwner l o).goOn i k) (Function.update φ i ψ) := by
  refine ⟨ho, fun j hj => ?_⟩
  by_cases hji : j = i
  · subst hji
    rw [Function.update_self] at hj
    exact absurd hj hψ
  · rw [Function.update_of_ne hji] at hj
    rw [Config.goOn_prog_of_ne _ hji]
    exact h.unloading j hj

theorem LockInv.step (h : LockInv K cf φ) {e : Spinlocks.Event (Option ℕ) Lock (State κ)}
    (hst : Step (Starts K) cf e cf') : ∃ φ', LockInv K cf' φ' := by
  cases hst with
  | @start i p hnone hstart =>
    refine ⟨φ, h.orderly.start hnone hstart, fun j hj => ⟨(h.unloading j hj).1, fun q hq => ?_⟩⟩
    by_cases hji : j = i
    · subst hji
      obtain rfl := (h.unloading j hj).1
      rw [Config.goOn_prog_self] at hq
      cases hstart with
      | unload c => exact ⟨c, (Option.some.inj hq).symm⟩
    · rw [Config.goOn_prog_of_ne cf hji] at hq
      exact (h.unloading j hj).2 q hq
  | lock hprog hfree =>
    obtain ⟨ψ, hstep, ho⟩ := h.orderly.lock hprog hfree
    exact ⟨_, h.goOn (Phase.Locks.ne_unloading hstep) _ _ ho⟩
  | unlock hprog =>
    obtain ⟨ψ, hstep, ho⟩ := h.orderly.unlock hprog
    exact ⟨_, h.goOn (Phase.Unlocks.ne_unloading hstep) _ _ ho⟩

/-! ## Steps that block -/

/-- Execution `i` takes `pidlist_lock` and asks for `calltable_lock` next, while another one holds
`calltable_lock` and is about to take `pidlist_lock` again. -/
def CutsIn (cf : LockConfig κ) (i : Option ℕ) : Prop :=
  ∃ k k', cf.prog i = some (.lock .pidlist k) ∧ (k.settle cf.shared).2 = .lock .calltable k' ∧
    ∃ j ≠ i, cf.owner .calltable = some j ∧ cf.Wants j .pidlist

/-- Root's `exit_function` takes `calltable_lock` while a number that its loop reaches is
intercepted. -/
def Nests (K : Kernel) (cf : LockConfig κ) (i : Option ℕ) : Prop :=
  ∃ c, cf.prog i = some (exitFunctionProg K c) ∧ c.uid = 0 ∧
    ∃ index, 0 < index ∧ index < K.nrSyscalls ∧ (cf.shared.table index).intercepted = 1

def Blocks (K : Kernel) (cf : LockConfig κ) : Spinlocks.Event (Option ℕ) Lock (State κ) → Prop
  | .start _ _ => False
  | .run i => CutsIn cf i ∨ Nests K cf i

theorem not_blocks_unlock {i : Option ℕ} {l : Lock} {k : LockProg κ Unit}
    (hprog : cf.prog i = some (.unlock l k)) : ¬ Blocks K cf (.run i) := by
  rintro (⟨k₁, -, hlock, -⟩ | ⟨c, hlock, -⟩)
  · cases hprog.symm.trans hlock
  · cases hprog.symm.trans hlock

/-- To take `pidlist_lock` blocks nothing when nobody else holds `calltable_lock`. -/
theorem not_blocks_pidlist {i : Option ℕ} {k : LockProg κ Unit}
    (hprog : cf.prog i = some (.lock .pidlist k)) (hown : ∀ j ≠ i, cf.owner .calltable ≠ some j) :
    ¬ Blocks K cf (.run i) := by
  rintro (⟨-, -, -, -, j, hj, hheld, -⟩ | ⟨c, hlock, -⟩)
  · exact hown j hj hheld
  · cases hprog.symm.trans hlock

/-- To take `calltable_lock` blocks nothing when no number is intercepted. -/
theorem not_blocks_calltable {i : Option ℕ} {k : LockProg κ Unit}
    (hprog : cf.prog i = some (.lock .calltable k))
    (htable : ∀ index, (cf.shared.table index).intercepted ≠ 1) : ¬ Blocks K cf (.run i) := by
  rintro (⟨k₁, -, hlock, -⟩ | ⟨-, -, -, index, -, -, hindex⟩)
  · cases hprog.symm.trans hlock
  · exact htable index hindex

theorem CutsIn.crossed {i : Option ℕ} {l : Lock} {k : LockProg κ Unit}
    (hcut : CutsIn cf i) (hprog : cf.prog i = some (.lock l k)) :
    ((cf.setOwner l (some i)).goOn i k).Crossed
      .calltable .pidlist := by
  obtain ⟨k₀, k', hk₀, hnext, j, hji, hown, hwant⟩ := hcut
  obtain ⟨rfl, rfl⟩ := Prog.lock.inj (Option.some.inj (hprog.symm.trans hk₀))
  refine ⟨j, i, hji, ?_, ?_, ?_, k', ?_⟩
  · rw [Config.goOn_owner, Config.setOwner_owner_of_ne _ (by decide)]
    exact hown
  · obtain ⟨k'', hk''⟩ := hwant
    exact ⟨k'', by rw [Config.goOn_prog_of_ne _ hji]; exact hk''⟩
  · rw [Config.goOn_owner, Config.setOwner_owner_self]
  · rw [Config.goOn_prog_self]
    exact congrArg some hnext

theorem Nests.selfBlocked {i : Option ℕ} {l : Lock} {k : LockProg κ Unit}
    (hnest : Nests K cf i) (hprog : cf.prog i = some (.lock l k)) :
    ((cf.setOwner l (some i)).goOn i k).SelfBlocked i := by
  obtain ⟨c, hc, hroot, hindex⟩ := hnest
  rw [exitFunctionProg_eq] at hc
  obtain ⟨rfl, rfl⟩ := Prog.lock.inj (Option.some.inj (hprog.symm.trans hc))
  obtain ⟨k', hk'⟩ := (exitFunctionBody_settle cf.shared).2 ⟨hroot, hindex⟩
  refine ⟨.calltable, ⟨k', ?_⟩, ?_⟩
  · rw [Config.goOn_prog_self]
    exact congrArg some hk'
  · rw [Config.goOn_owner, Config.setOwner_owner_self]

/-! ## Safety -/

theorem lock_cases (l : Lock) : l = .calltable ∨ l = .pidlist := by
  cases l with
  | calltable => exact .inl rfl
  | pidlist => exact .inr rfl

theorem safe_iff_not_crossed : cf.Safe ↔
    (∀ i, ¬ cf.SelfBlocked i) ∧ ¬ cf.Crossed .calltable .pidlist := by
  rw [← deadlocked_iff_crossed lock_cases, not_exists]
  exact ⟨fun h => ⟨h.not_selfBlocked, h.not_deadlocked⟩, fun h => ⟨h.1, h.2⟩⟩

/-- After a granted lock, only the execution that took it can be blocked by itself, and only
`exit_function`. -/
theorem LockInv.selfBlocked_lock {i j : Option ℕ} {l : Lock} {k : LockProg κ Unit}
    (h : LockInv K cf φ) (hsafe : cf.Safe) (hprog : cf.prog i = some (.lock l k))
    (hfree : cf.owner l = none)
    (hself : ((cf.setOwner l (some i)).goOn i k).SelfBlocked j) :
    Nests K cf i := by
  obtain ⟨ψ, hstep, ho⟩ := h.orderly.lock hprog hfree
  obtain ⟨m, ⟨k', hk'⟩, hown⟩ := hself
  by_cases hji : j = i
  · subst hji
    obtain ⟨hψ, rfl⟩ := ho.relocks hk' hown
    rw [Function.update_self] at hψ
    subst hψ
    -- only `exit_function` comes to this phase
    have hunload : φ j = .unloading ∧ l = .calltable := by
      generalize φ j = φj at hstep
      cases hstep
      exact ⟨rfl, rfl⟩
    obtain ⟨-, hexit⟩ := h.unloading j hunload.1
    obtain ⟨c, hc⟩ := hexit _ hprog
    rw [exitFunctionProg_eq] at hc
    obtain ⟨rfl, rfl⟩ := Prog.lock.inj hc
    rw [Config.goOn_prog_self] at hk'
    have hnest := (exitFunctionBody_settle cf.shared).1 ⟨k', Option.some.inj hk'⟩
    exact ⟨c, by rw [exitFunctionProg_eq]; exact hprog, hnest.1, hnest.2⟩
  · rw [Config.goOn_prog_of_ne _ hji] at hk'
    rw [Config.goOn_owner] at hown
    by_cases hml : m = l
    · subst hml
      rw [Config.setOwner_owner_self] at hown
      exact absurd (Option.some.inj hown).symm hji
    · rw [Config.setOwner_owner_of_ne _ hml] at hown
      exact absurd ⟨m, ⟨k', hk'⟩, hown⟩ (hsafe.not_selfBlocked j)

/-- After a granted lock, a crossed pair has just come to be by cutting in. -/
theorem LockInv.crossed_lock {i : Option ℕ} {l : Lock} {k : LockProg κ Unit}
    (h : LockInv K cf φ) (hprog : cf.prog i = some (.lock l k)) (hfree : cf.owner l = none)
    (hcross : ((cf.setOwner l (some i)).goOn i k).Crossed .calltable .pidlist) :
    CutsIn cf i := by
  obtain ⟨ψ, hstep, ho⟩ := h.orderly.lock hprog hfree
  obtain ⟨j, j', hne, hown, ⟨k₁, hk₁⟩, hown', ⟨k₂, hk₂⟩⟩ := hcross
  cases l with
  | calltable =>
    -- the holder of `calltable_lock` has just taken it: it does not ask for `pidlist_lock` next
    rw [Config.goOn_owner, Config.setOwner_owner_self] at hown
    obtain rfl := Option.some.inj hown
    have hfollows := ho.follows _ _ (.inl hk₁)
    have hnot : ¬ spinning.holds ψ .pidlist := by
      have howner := ho.owner i .pidlist
      rw [Function.update_self] at howner
      rw [← howner, hown']
      exact fun heq => hne (Option.some.inj heq).symm
    rw [Function.update_self] at hfollows
    obtain ⟨-, hlock⟩ | ⟨χ, hlock, -⟩ := hfollows
    · cases hlock
    · generalize φ i = φi at hstep
      cases hstep
      · cases hlock
      · exact absurd trivial hnot
      · cases hlock
  | pidlist =>
    rw [Config.goOn_owner, Config.setOwner_owner_self] at hown'
    obtain rfl := Option.some.inj hown'
    rw [Config.goOn_owner, Config.setOwner_owner_of_ne _ (by decide)] at hown
    rw [Config.goOn_prog_of_ne _ hne] at hk₁
    rw [Config.goOn_prog_self] at hk₂
    exact ⟨k, k₂, hprog, Option.some.inj hk₂, j, hne, hown, k₁, hk₁⟩

/-- An execution that starts, or releases a lock, blocks nothing. -/
theorem LockInv.safe_start {i : Option ℕ} {p : LockProg κ Unit} (h : LockInv K cf φ)
    (hsafe : cf.Safe) (hnone : cf.prog i = none) : (cf.goOn i p).Safe := by
  have hfree : ∀ {l j}, cf.owner l = some j → j ≠ i := by
    intro l j hj heq
    subst heq
    exact h.orderly.fresh j hnone l ((h.orderly.owner j l).1 hj)
  obtain ⟨hself, hcross⟩ := safe_iff_not_crossed.1 hsafe
  refine safe_iff_not_crossed.2 ⟨fun j hj => ?_, fun hex => ?_⟩
  · obtain ⟨l, ⟨k, hk⟩, hown⟩ := hj
    rw [Config.goOn_prog_of_ne cf (hfree hown)] at hk
    exact hself j ⟨l, ⟨k, hk⟩, hown⟩
  · obtain ⟨j, j', hne, hown, ⟨k, hk⟩, hown', ⟨k', hk'⟩⟩ := hex
    rw [Config.goOn_prog_of_ne cf (hfree hown)] at hk
    rw [Config.goOn_prog_of_ne cf (hfree hown')] at hk'
    exact hcross ⟨j, j', hne, hown, ⟨k, hk⟩, hown', ⟨k', hk'⟩⟩

theorem LockInv.safe_unlock {i : Option ℕ} {l : Lock} {k : LockProg κ Unit} (h : LockInv K cf φ)
    (hsafe : cf.Safe) (hprog : cf.prog i = some (.unlock l k)) :
    ((cf.setOwner l none).goOn i k).Safe := by
  obtain ⟨ψ, hstep, ho⟩ := h.orderly.unlock hprog
  -- the released lock is held by nobody
  have hkeep : ∀ {m j}, (cf.setOwner l none).owner m = some j → cf.owner m = some j := by
    intro m j hj
    by_cases hml : m = l
    · subst hml
      rw [Config.setOwner_owner_self] at hj
      cases hj
    · rwa [Config.setOwner_owner_of_ne _ hml] at hj
  refine safe_iff_not_crossed.2 ⟨fun j hj => ?_, fun hex => ?_⟩
  · obtain ⟨m, ⟨k', hk'⟩, hown⟩ := hj
    obtain ⟨hψ, -⟩ := ho.relocks hk' hown
    by_cases hji : j = i
    · subst hji
      rw [Function.update_self] at hψ
      subst hψ
      generalize φ j = φj at hstep
      cases hstep
    · rw [Config.goOn_prog_of_ne _ hji] at hk'
      exact hsafe.not_selfBlocked j ⟨m, ⟨k', hk'⟩, hkeep hown⟩
  · obtain ⟨j, j', -, hown, -, hown', -⟩ := hex
    cases l with
    | calltable =>
      rw [Config.goOn_owner, Config.setOwner_owner_self] at hown
      cases hown
    | pidlist =>
      rw [Config.goOn_owner, Config.setOwner_owner_self] at hown'
      cases hown'

/-- A step keeps a configuration safe unless it cuts in or nests. -/
theorem LockInv.safe_step_iff (h : LockInv K cf φ) (hsafe : cf.Safe)
    {e : Spinlocks.Event (Option ℕ) Lock (State κ)} (hst : Step (Starts K) cf e cf') :
    cf'.Safe ↔ ¬ Blocks K cf e := by
  cases hst with
  | start hnone _ => exact iff_of_true (h.safe_start hsafe hnone) not_false
  | @lock i l k hprog hfree =>
    constructor
    · intro hsafe' hblocks
      obtain hcut | hnest := hblocks
      · exact (safe_iff_not_crossed.1 hsafe').2 (hcut.crossed hprog)
      · exact hsafe'.not_selfBlocked i (hnest.selfBlocked hprog)
    · intro hnot
      refine safe_iff_not_crossed.2 ⟨fun j hj => ?_, fun hcross => ?_⟩
      · exact hnot (.inr (h.selfBlocked_lock hsafe hprog hfree hj))
      · exact hnot (.inl (h.crossed_lock hprog hfree hcross))
  | @unlock i l k hprog =>
    exact iff_of_true (h.safe_unlock hsafe hprog) (not_blocks_unlock hprog)

theorem safe_initial (s : State κ) : (Config.initial s : LockConfig κ).Safe := by
  refine safe_iff_not_crossed.2 ⟨fun i hi => ?_, fun hex => ?_⟩
  · obtain ⟨l, -, hown⟩ := hi
    cases hown
  · obtain ⟨j, j', -, hown, -⟩ := hex
    cases hown

/-- **No deadlock, all along a run,** exactly if no step of the run cuts in between the two
acquisitions of `pidlist_lock`, and root does not unload while a number that the loop reaches is
intercepted. -/
theorem safe_iff {s₀ : State κ}
    {p : List (Lts.Transition (LockConfig κ) (Spinlocks.Event (Option ℕ) Lock (State κ)))}
    (hrun : Lts.Run (Step (Starts K)) (.initial s₀) p cf) :
    ((∀ t ∈ p, t.before.Safe) ∧ cf.Safe) ↔ ∀ t ∈ p, ¬ Blocks K t.before t.event := by
  refine Lts.Run.throughout_iff (I := fun cf => ∃ φ, LockInv K cf φ)
    (C := fun cf e => ¬ Blocks K cf e) ⟨_, lockInv_initial K s₀⟩ (safe_initial s₀) ?_ ?_ hrun
  · intro cf e cf' hinv hst
    obtain ⟨φ, h⟩ := hinv
    exact h.step hst
  · intro cf e cf' hinv hsafe hst
    obtain ⟨φ, h⟩ := hinv
    exact h.safe_step_iff hsafe hst

/-- Root's START of syscall 5 for a pid. -/
def exStartProg (pid : Int) : LockProg ℕ Unit :=
  (mySyscallProg i386 exRoot true requestStartMonitoring 5 pid).bind fun _ => .pure ()

theorem exStartProg_starts (i : ℕ) (pid : Int) : Starts i386 (some i) (exStartProg pid) :=
  .request i exRoot true requestStartMonitoring 5 pid

/-- Two STARTs, for pids 8 and 9, of which the second one takes its first lock after the first has
ended. -/
theorem safe_iff_turns : ∃ p cf, Lts.Run (Step (Starts i386)) (.initial (loaded i386 id)) p cf ∧
    cf.owner .pidlist = some (some 1) ∧ (∀ t ∈ p, t.before.Safe) ∧ cf.Safe := by
  have h₀ := Lts.Run.nil.snoc (Step.start (c := .initial (loaded i386 id)) (i := some 0) rfl
    (exStartProg_starts 0 8))
  have h₁ := h₀.snoc (Step.start (i := some 1) rfl (exStartProg_starts 1 9))
  have h₂ := h₁.snoc (Step.lock (i := some 0) rfl rfl)
  have h₃ := h₂.snoc (Step.lock (i := some 0) rfl rfl)
  have h₄ := h₃.snoc (Step.unlock (i := some 0) rfl)
  have h₅ := h₄.snoc (Step.lock (i := some 0) rfl rfl)
  have h₆ := h₅.snoc (Step.unlock (i := some 0) rfl)
  have h₇ := h₆.snoc (Step.unlock (i := some 0) rfl)
  have h₈ := h₇.snoc (Step.lock (i := some 1) rfl rfl)
  have hreleased : ∀ index, ((loaded i386 id).table index).intercepted ≠ 1 := by
    intro index
    rw [loaded_table]
    decide
  have hfree : ∀ j : Option ℕ, (none : Option (Option ℕ)) ≠ some j := fun j => nofun
  refine ⟨_, _, h₈, rfl, (safe_iff h₈).2 ?_⟩
  simp only [List.forall_mem_cons]
  refine ⟨not_blocks_pidlist rfl fun j _ => hfree j, not_blocks_unlock rfl, not_blocks_unlock rfl,
    not_blocks_pidlist rfl fun j hj heq => hj (Option.some.inj heq).symm, not_blocks_unlock rfl,
    not_blocks_calltable rfl hreleased, not_blocks_pidlist rfl fun j _ => hfree j,
    not_false, not_false, List.forall_mem_nil _⟩

/-- Two STARTs, for pids 8 and 9, each wait for the lock that the other holds. -/
theorem start_deadlocks : ∃ p cf,
    Lts.Run (Step (Starts i386)) (.initial (loaded i386 id)) p cf ∧
    cf.Deadlocked {some 0, some 1} ∧ ¬ cf.Safe := by
  have h₀ := Lts.Run.nil.snoc (Step.start (c := .initial (loaded i386 id)) (i := some 0) rfl
    (exStartProg_starts 0 8))
  have h₁ := h₀.snoc (Step.start (i := some 1) rfl (exStartProg_starts 1 9))
  -- the first takes both locks and releases `pidlist_lock`, then the second takes that
  have h₂ := h₁.snoc (Step.lock (i := some 0) rfl rfl)
  have h₃ := h₂.snoc (Step.lock (i := some 0) rfl rfl)
  have h₄ := h₃.snoc (Step.unlock (i := some 0) rfl)
  have h₅ := h₄.snoc (Step.lock (i := some 1) rfl rfl)
  refine ⟨_, _, h₅, ?dead, fun hsafe => hsafe.not_deadlocked _ ?dead⟩
  refine ⟨⟨some 0, .inl rfl⟩, fun i hi => ?_⟩
  obtain rfl | rfl := hi
  · exact ⟨.pidlist, ⟨_, rfl⟩, some 1, .inr rfl, by decide, rfl⟩
  · exact ⟨.calltable, ⟨_, rfl⟩, some 0, .inl rfl, by decide, rfl⟩

end Cscc69.Interceptor
