import Cscc69.Interceptor.Flags

/-!
# Refused requests

A request that returns a negative value should leave `sys_call_table` and `table` as they were.
All refusals do but one: START sets a flag of 0 to 1 before it asks for memory, and does not set it
back when there is none (`RunsOut`). The spinlocks are free after every request that found them
free.

Main result: `refused_iff`.
-/

namespace Cscc69.Interceptor

variable {κ : Type*} {K : Kernel} {c : Caller} {kmalloc : Bool} {cmd syscall pid : Int}
  {s s' : State κ} {n : ℕ}

/-! ## Locks -/

/-- The locks that were free are free. -/
structure LocksFree (s s' : State κ) : Prop where
  calltable : s.calltableLock = false → s'.calltableLock = false
  pidlist : s.pidlistLock = false → s'.pidlistLock = false

theorem LocksFree.refl (s : State κ) : LocksFree s s := ⟨id, id⟩

theorem intercept_locks (n : ℕ) (s : State κ) : LocksFree s (intercept n s).2 := by
  unfold intercept
  split
  · exact .refl s
  · exact ⟨fun _ => rfl, fun h => h⟩

theorem release_locks (n : ℕ) (s : State κ) : LocksFree s (release n s).2 := by
  unfold release
  split
  · exact .refl s
  · exact ⟨fun _ => rfl, fun h => h⟩

theorem startMonitoring_locks (kmalloc : Bool) (n : ℕ) (pid : Int) (s : State κ) :
    LocksFree s (startMonitoring kmalloc n pid s).2 := by
  unfold startMonitoring
  split
  · dsimp only
    split
    · exact ⟨fun _ => rfl, fun _ => rfl⟩
    · exact ⟨fun _ => rfl, fun _ => rfl⟩
  · dsimp only
    split
    · exact ⟨fun _ => rfl, fun h => h⟩
    · exact ⟨fun _ => rfl, fun h => h⟩

theorem stopMonitoring_locks (n : ℕ) (pid : Int) (s : State κ) :
    LocksFree s (stopMonitoring n pid s).2 := by
  unfold stopMonitoring
  dsimp only
  split
  · exact ⟨fun _ => rfl, fun h => h⟩
  split
  · split
    · exact ⟨fun _ => rfl, fun _ => rfl⟩
    · exact ⟨fun _ => rfl, fun _ => rfl⟩
  · split
    · exact ⟨fun _ => rfl, fun h => h⟩
    · exact ⟨fun _ => rfl, fun h => h⟩

theorem mySyscall_locks (K : Kernel) (c : Caller) (kmalloc : Bool) (cmd syscall pid : Int)
    (s : State κ) : LocksFree s (mySyscall K c kmalloc cmd syscall pid s).2 := by
  unfold mySyscall
  split
  · exact .refl s
  dsimp only
  split
  · exact intercept_locks _ s
  split
  · exact release_locks _ s
  split
  · exact startMonitoring_locks kmalloc _ pid s
  · exact stopMonitoring_locks _ pid s

/-! ## The table -/

/-- A request that returns a negative value leaves the slots and the entries alone, and free locks
free. -/
def RefusalKeeps (K : Kernel) (c : Caller) (kmalloc : Bool) (cmd syscall pid : Int)
    (s : State κ) : Prop :=
  (mySyscall K c kmalloc cmd syscall pid s).1 < 0 →
    (mySyscall K c kmalloc cmd syscall pid s).2.sysCallTable = s.sysCallTable ∧
    (mySyscall K c kmalloc cmd syscall pid s).2.table = s.table ∧
    LocksFree s (mySyscall K c kmalloc cmd syscall pid s).2

/-- START for a pid that is not in the list of a syscall whose flag is 0, without memory. -/
def RunsOut (K : Kernel) (c : Caller) (kmalloc : Bool) (cmd syscall pid : Int) (s : State κ) :
    Prop :=
  cmd = requestStartMonitoring ∧ Accepted K syscall ∧ MayName c pid ∧ kmalloc = false ∧
    pid ∉ (s.table syscall.toNat).myList ∧ (s.table syscall.toNat).monitored = 0

instance (K : Kernel) (c : Caller) (kmalloc : Bool) (cmd syscall pid : Int) (s : State κ) :
    Decidable (RunsOut K c kmalloc cmd syscall pid s) := by
  unfold RunsOut; infer_instance

/-- A refusal leaves the entry and the slot alone, unless it is for want of memory. -/
theorem Effect.refusal {e e' : Mytable κ} {h h' : Option (Handler κ)} {r : Int}
    (heff : Effect c cmd pid e h r e' h') (hr : r < 0)
    (hmem : cmd = requestStartMonitoring → MayName c pid → pid ∉ e.myList → r = -enomem →
      e.monitored ≠ 0) : e' = e ∧ h' = h := by
  cases heff with
  | refused _ => exact ⟨rfl, rfl⟩
  | intercepted _ _ _ | released _ _ _ | started _ _ _ | startedAll _ _ _ _ _
  | stopped _ _ _ _ | stoppedAll _ _ _ _ _ => exact absurd hr (lt_irrefl 0)
  | outOfMemory hcmd hname hin =>
    rw [if_neg (hmem hcmd hname hin rfl)]
    exact ⟨rfl, rfl⟩

/-- **A refused request changes nothing**, in any state, unless it is a START that runs out of
memory with the flag at 0. -/
theorem refused_iff (K : Kernel) (c : Caller) (kmalloc : Bool) (cmd syscall pid : Int)
    (s : State κ) :
    RefusalKeeps K c kmalloc cmd syscall pid s ↔ ¬ RunsOut K c kmalloc cmd syscall pid s := by
  constructor
  · intro hkeeps hout
    obtain ⟨rfl, ⟨hpos, hle⟩, hname, rfl, hin, hm⟩ := hout
    obtain ⟨n, rfl⟩ : ∃ n : ℕ, syscall = n := ⟨syscall.toNat, by omega⟩
    rw [Int.toNat_natCast] at hin hm
    have hp : pid ≠ 0 := hname.1.ne'
    have heq : mySyscall K c false requestStartMonitoring n pid s =
        startMonitoring false n pid s :=
      mySyscall_startMonitoring (by omega) (by omega) hname
    rw [RefusalKeeps, heq] at hkeeps
    have hneg : (startMonitoring false n pid s).1 < 0 := by
      rw [startMonitoring_result hp, if_neg hin]
      decide
    have htable := congrFun (hkeeps hneg).2.1 n
    rw [startMonitoring_false_entry hp hin, if_pos hm] at htable
    have hflag := congrArg Mytable.monitored htable
    rw [hm] at hflag
    cases hflag
  · intro hnot hr
    rcases mySyscall_cases K c kmalloc cmd syscall pid s with
      ⟨-, heq⟩ | ⟨n, rfl, hpos, hle, -, e', h', ht, hs, heff⟩
    · rw [heq]
      exact ⟨rfl, rfl, .refl s⟩
    · obtain ⟨rfl, rfl⟩ := heff.refusal hr fun hcmd hname hin hret hm => by
        subst hcmd
        rw [mySyscall_startMonitoring hpos hle hname, startMonitoring_result hname.1.ne',
          if_neg hin] at hret
        refine hnot ⟨rfl, ⟨by omega, by omega⟩, hname, ?_, by rwa [Int.toNat_natCast],
          by rwa [Int.toNat_natCast]⟩
        cases kmalloc with
        | false => rfl
        | true => cases hret
      rw [hs, ht, Function.update_eq_self, Function.update_eq_self]
      exact ⟨rfl, rfl, mySyscall_locks K c kmalloc cmd n pid s⟩

/-- Right after loading, START for pid 8 runs out of memory: it returns -ENOMEM and leaves the flag
of syscall 5 at 1. -/
theorem start_half_done :
    Reachable i386 id (exRun []) ∧
    (mySyscall i386 exRoot false requestStartMonitoring 5 8 (exRun [])).1 = -enomem ∧
    ((exRun []).table 5).monitored = 0 ∧
    ((mySyscall i386 exRoot false requestStartMonitoring 5 8 (exRun [])).2.table 5).monitored = 1 ∧
    ¬ RefusalKeeps i386 exRoot false requestStartMonitoring 5 8 (exRun []) := by
  have hbefore : ((exRun []).table 5).monitored = 0 := by decide
  have hafter : ((mySyscall i386 exRoot false requestStartMonitoring 5 8
      (exRun [])).2.table 5).monitored = 1 := by decide
  refine ⟨exRun_reachable _, by decide, hbefore, hafter, fun hkeeps => ?_⟩
  rw [(hkeeps (by decide)).2.1, hbefore] at hafter
  cases hafter

end Cscc69.Interceptor
