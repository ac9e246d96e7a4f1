import Cscc69.Interceptor.Monitoring

/-!
# Unloading

`exit_function` releases what is intercepted among the numbers below `NR_syscalls`, and puts the
two hijacked system calls back. Requests may name `NR_syscalls` itself too, and the loop does not
reach it. So unloading restores the system call table exactly if `NR_syscalls` is not left
intercepted, which the requests themselves tell: the last INTERCEPT or RELEASE that root made for
this number must not be an INTERCEPT (`unload_restores_iff`).

The proof follows the loop with `ReleasedTo k`: the numbers below `k` hold the handlers of the
loaded module again, and the others are as they were.
-/

namespace Cscc69.Interceptor

variable {κ : Type*} {K : Kernel} {handlers : ℕ → κ} {s : State κ} {c : Caller}

/-! ## The loop of `exit_function` -/

/-- One pass of the loop. -/
def releaseIndex (K : Kernel) (c : Caller) (s : State κ) (index : ℕ) : State κ :=
  if (s.table index).intercepted = 1 then
    (mySyscall K c true requestSyscallRelease index index s).2
  else s

theorem mySyscall_release (hroot : c.uid = 0) (kmalloc : Bool) {n : ℕ} (hn : 0 < n)
    (hK : n ≤ K.nrSyscalls) (pid : Int) :
    mySyscall K c kmalloc requestSyscallRelease n pid s = release n s := by
  have herr : requestError K c requestSyscallRelease n pid = none :=
    (requestError_table (.inr rfl)).2 ⟨⟨by omega, by omega⟩, hroot⟩
  simp only [mySyscall, herr]
  rfl

/-- After `k` passes from `s`. -/
structure ReleasedTo (K : Kernel) (handlers : ℕ → κ) (s : State κ) (k : ℕ) (s' : State κ) :
    Prop where
  inv : Inv K handlers s'
  done : ∀ n < k, (s'.table n).intercepted = 0
  todo : ∀ n, k ≤ n → s'.table n = s.table n ∧ s'.sysCallTable n = s.sysCallTable n

theorem releasedTo_step (hroot : c.uid = 0) {k : ℕ} (hk : k < K.nrSyscalls) {s' : State κ}
    (h : ReleasedTo K handlers s k s') :
    ReleasedTo K handlers s (k + 1) (releaseIndex K c s' k) := by
  unfold releaseIndex
  split
  · rename_i hi
    have hpos : 0 < k := by
      rw [Nat.pos_iff_ne_zero]
      rintro rfl
      rw [h.inv.outside 0 (by omega)] at hi
      exact absurd hi (by decide)
    refine ⟨inv_mySyscall c true _ k k h.inv, ?_, ?_⟩
    all_goals
      rw [mySyscall_release hroot true hpos hk.le]
      unfold release
      rw [if_neg (by rw [hi]; decide)]
    · intro n hn
      by_cases hnk : n = k
      · subst hnk
        show (Function.update s'.table n _ n).intercepted = 0
        rw [Function.update_self]
      · show (Function.update s'.table k _ n).intercepted = 0
        rw [Function.update_of_ne hnk]
        exact h.done n (by omega)
    · intro n hn
      have hnk : n ≠ k := by omega
      show Function.update s'.table k _ n = _ ∧ Function.update s'.sysCallTable k _ n = _
      rw [Function.update_of_ne hnk, Function.update_of_ne hnk]
      exact h.todo n (by omega)
  · rename_i hi
    refine ⟨h.inv, fun n hn => ?_, fun n hn => h.todo n (by omega)⟩
    by_cases hnk : n = k
    · subst hnk
      rcases h.inv.hooks n with ⟨h0, _⟩ | ⟨h1, _⟩
      · exact h0
      · exact absurd h1 hi
    · exact h.done n (by omega)

theorem releasedTo_foldl (hroot : c.uid = 0) (h : Inv K handlers s) {k : ℕ}
    (hk : k ≤ K.nrSyscalls) :
    ReleasedTo K handlers s k ((List.range k).foldl (releaseIndex K c) s) := by
  induction k with
  | zero => exact ⟨h, fun n hn => absurd hn (by omega), fun n _ => ⟨rfl, rfl⟩⟩
  | succ k ih =>
    rw [List.range_succ, List.foldl_append]
    exact releasedTo_step hroot (by omega) (ih (by omega))

/-! ## After `exit_function` -/

theorem Inv.lockCalltable (h : Inv K handlers s) : Inv K handlers s.lockCalltable :=
  ⟨h.lists, h.hooks, h.outside, h.origs⟩

/-- The table after unloading: every slot holds its old handler, except that of `NR_syscalls`,
which is as it was. -/
theorem exitFunction_sysCallTable (hroot : c.uid = 0) (h : Inv K handlers s) (n : ℕ) :
    (exitFunction K c s).sysCallTable n =
      if n = K.nrSyscalls then s.sysCallTable n else some (.kernel (handlers n)) := by
  have hrel := releasedTo_foldl (c := c) hroot h.lockCalltable (le_refl K.nrSyscalls)
  set s' := (List.range K.nrSyscalls).foldl (releaseIndex K c) s.lockCalltable with hs'
  have hexit : (exitFunction K c s).sysCallTable =
      Function.update (Function.update s'.sysCallTable myCustomSyscall s'.origCustomSyscall)
        K.nrExitGroup s'.origExitGroup := rfl
  have hcustom : s'.origCustomSyscall = some (.kernel (handlers myCustomSyscall)) :=
    congrArg Prod.fst hrel.inv.origs
  have hgroup : s'.origExitGroup = some (.kernel (handlers K.nrExitGroup)) :=
    congrArg Prod.snd hrel.inv.origs
  have hNR : 0 < K.nrSyscalls := K.exitGroup_pos.trans K.exitGroup_lt
  rw [hexit]
  by_cases hg : n = K.nrExitGroup
  · rw [hg, Function.update_self, if_neg K.exitGroup_lt.ne, hgroup]
  rw [Function.update_of_ne hg]
  by_cases hz : n = myCustomSyscall
  · rw [hz, Function.update_self, if_neg (show myCustomSyscall ≠ K.nrSyscalls from hNR.ne), hcustom]
  rw [Function.update_of_ne hz]
  have hloaded : loadedSlot K handlers n = some (.kernel (handlers n)) := by
    rw [loadedSlot_eq, if_neg hg, if_neg hz]
  by_cases hn : n = K.nrSyscalls
  · rw [if_pos hn]
    exact (hrel.todo n hn.ge).2
  · rw [if_neg hn]
    have hzero : (s'.table n).intercepted = 0 := by
      rcases Nat.lt_or_ge n K.nrSyscalls with hlt | hge
      · exact hrel.done n hlt
      · exact hrel.inv.outside n (by omega)
    rcases hrel.inv.hooks n with ⟨_, hslot⟩ | ⟨h1, _⟩
    · exact hslot.trans hloaded
    · exact absurd (hzero.symm.trans h1) (by decide)

/-! ## What the requests say about `NR_syscalls` -/

/-- What an event makes of `NR_syscalls`: root's INTERCEPT intercepts it, root's RELEASE releases
it, and nothing else touches it. -/
def Event.setsLast (K : Kernel) : Event → Option Bool
  | .request c _ cmd syscall _ =>
    if c.uid = 0 ∧ syscall = K.nrSyscalls then
      if cmd = requestSyscallIntercept then some true
      else if cmd = requestSyscallRelease then some false else none
    else none
  | _ => none

/-- Whether the events leave `NR_syscalls` intercepted. -/
def leavesLast (K : Kernel) (es : List Event) : Bool :=
  es.foldl (fun b e => (e.setsLast K).getD b) false

theorem mySyscall_intercept (hroot : c.uid = 0) (kmalloc : Bool) {n : ℕ} (hn : 0 < n)
    (hK : n ≤ K.nrSyscalls) (pid : Int) :
    mySyscall K c kmalloc requestSyscallIntercept n pid s = intercept n s := by
  have herr : requestError K c requestSyscallIntercept n pid = none :=
    (requestError_table (.inl rfl)).2 ⟨⟨by omega, by omega⟩, hroot⟩
  simp only [mySyscall, herr]
  rfl

theorem intercept_intercepted (n : ℕ) (s : State κ) :
    ((intercept n s).2.table n).intercepted = 1 := by
  unfold intercept
  split
  · assumption
  · simp

theorem release_intercepted (n : ℕ) (s : State κ) :
    ((release n s).2.table n).intercepted = 0 := by
  unfold release
  split
  · assumption
  · simp

/-- Only root's INTERCEPT and RELEASE change whether an entry is intercepted. -/
theorem Effect.intercepted_eq {cmd pid r : Int} {e e' : Mytable κ} {h h' : Option (Handler κ)}
    (heff : Effect c cmd pid e h r e' h')
    (hne : ¬ (c.uid = 0 ∧ (cmd = requestSyscallIntercept ∨ cmd = requestSyscallRelease))) :
    e'.intercepted = e.intercepted := by
  cases heff with
  | refused _ => rfl
  | intercepted hcmd hroot _ => exact absurd ⟨hroot, .inl hcmd⟩ hne
  | released hcmd hroot _ => exact absurd ⟨hroot, .inr hcmd⟩ hne
  | started _ _ _ | outOfMemory _ _ _ | startedAll _ _ _ _ _ | stoppedAll _ _ _ _ _ => rfl
  | stopped _ _ _ _ => exact Mytable.unlink_intercepted pid _

theorem request_setsLast (kmalloc : Bool) (cmd syscall pid : Int) :
    ((mySyscall K c kmalloc cmd syscall pid s).2.table K.nrSyscalls).intercepted = 1 ↔
      ((Event.request c kmalloc cmd syscall pid).setsLast K).getD
        (decide ((s.table K.nrSyscalls).intercepted = 1)) = true := by
  have hNR : 0 < K.nrSyscalls := K.exitGroup_pos.trans K.exitGroup_lt
  by_cases hset : (c.uid = 0 ∧ syscall = K.nrSyscalls) ∧
      (cmd = requestSyscallIntercept ∨ cmd = requestSyscallRelease)
  · obtain ⟨⟨hroot, rfl⟩, rfl | rfl⟩ := hset
    · rw [mySyscall_intercept hroot kmalloc hNR le_rfl, intercept_intercepted]
      simp [Event.setsLast, hroot]
    · rw [mySyscall_release hroot kmalloc hNR le_rfl, release_intercepted]
      simp [Event.setsLast, hroot, requestSyscallRelease, requestSyscallIntercept]
  · have hnone : (Event.request c kmalloc cmd syscall pid).setsLast K = none := by
      simp only [Event.setsLast]
      split
      · rename_i hlast
        have hcmd := not_or.1 fun hcmd => hset ⟨hlast, hcmd⟩
        rw [if_neg hcmd.1, if_neg hcmd.2]
      · rfl
    rw [hnone, Option.getD_none, decide_eq_true_eq]
    rcases mySyscall_cases K c kmalloc cmd syscall pid s with
      ⟨_, heq⟩ | ⟨n, rfl, _, _, _, e', h', ht, _, heff⟩
    · rw [heq]
    · rw [ht]
      by_cases hn : K.nrSyscalls = n
      · subst hn
        rw [Function.update_self, heff.intercepted_eq fun h => hset ⟨⟨h.1, rfl⟩, h.2⟩]
      · rw [Function.update_of_ne hn]

theorem step_setsLast (h : Inv K handlers s) (e : Event) :
    ((step K s e).table K.nrSyscalls).intercepted = 1 ↔
      (e.setsLast K).getD (decide ((s.table K.nrSyscalls).intercepted = 1)) = true := by
  cases e with
  | request c kmalloc cmd syscall pid => exact request_setsLast kmalloc cmd syscall pid
  | exitGroup pid =>
    simp only [step, Event.setsLast, Option.getD_none, decide_eq_true_eq]
    rw [myExitGroup_table, if_neg (by omega)]
  | call pid n =>
    simp only [step, Event.setsLast, Option.getD_none, decide_eq_true_eq]
    split
    · rename_i hslot
      rw [h.interceptor_eq pid hslot]
    · rfl

theorem run_leavesLast (K : Kernel) (handlers : ℕ → κ) (es : List Event) :
    ((run K handlers es).table K.nrSyscalls).intercepted = 1 ↔ leavesLast K es = true := by
  induction es using List.reverseRecOn with
  | nil =>
    show ((loaded K handlers).table K.nrSyscalls).intercepted = 1 ↔ false = true
    rw [loaded_table]
    simp [Mytable.zero]
  | append_singleton es e ih =>
    have hstep := step_setsLast (run_reachable es : Reachable K handlers (run K handlers es)).inv e
    rw [run, List.foldl_append, leavesLast, List.foldl_append]
    show ((step K (run K handlers es) e).table K.nrSyscalls).intercepted = 1 ↔
      (e.setsLast K).getD (leavesLast K es) = true
    have hb : decide (((run K handlers es).table K.nrSyscalls).intercepted = 1) =
        leavesLast K es := by
      rw [Bool.eq_iff_iff, decide_eq_true_eq]
      exact ih
    rw [hstep, hb]

/-! ## Unloading -/

/-- **Unloading restores the system call table exactly if `NR_syscalls` is not left
intercepted**: after any events, the slots that `exit_function` leaves are those of the kernel
before `init_function`, unless root's last INTERCEPT or RELEASE of `NR_syscalls` was an
INTERCEPT. -/
theorem unload_restores_iff (K : Kernel) (handlers : ℕ → κ) (es : List Event) (c : Caller)
    (hroot : c.uid = 0) :
    (∀ n, (exitFunction K c (run K handlers es)).sysCallTable n =
      (State.boot handlers).sysCallTable n) ↔ leavesLast K es = false := by
  have hinv : Inv K handlers (run K handlers es) := (run_reachable es).inv
  rw [← Bool.not_eq_true, ← run_leavesLast K handlers]
  constructor
  · intro hall hi
    have hlast := (exitFunction_sysCallTable hroot hinv K.nrSyscalls).symm.trans
      (hall K.nrSyscalls)
    rw [if_pos rfl] at hlast
    rcases hinv.hooks K.nrSyscalls with ⟨h0, _⟩ | ⟨_, hslot, _⟩
    · exact absurd (h0.symm.trans hi) (by decide)
    · exact absurd (hslot.symm.trans hlast) (by simp [State.boot])
  · intro hi n
    rw [exitFunction_sysCallTable hroot hinv n]
    split
    · rename_i hn
      subst hn
      have hNR : K.nrSyscalls ≠ myCustomSyscall := (K.exitGroup_pos.trans K.exitGroup_lt).ne'
      rcases hinv.hooks K.nrSyscalls with ⟨_, hslot⟩ | ⟨h1, _⟩
      · rw [hslot, loadedSlot_eq, if_neg K.exitGroup_lt.ne', if_neg hNR]
        rfl
      · exact absurd h1 hi
    · rfl

/-- Root intercepts syscall 5 and unloads the module. -/
theorem unload_restores_five :
    exRoot.uid = 0 ∧ ∀ n, (exitFunction i386 exRoot (run i386 id [exIntercept])).sysCallTable n =
      (State.boot id).sysCallTable n :=
  ⟨rfl, (unload_restores_iff i386 id [exIntercept] exRoot rfl).2 (by decide)⟩

/-- Root intercepts the number `NR_syscalls` itself. -/
def exInterceptLast : Event := .request exRoot true requestSyscallIntercept 337 0

/-- The module is gone, and slot `NR_syscalls` still holds its interceptor. -/
theorem unload_keeps_interceptor :
    exRoot.uid = 0 ∧
    (exitFunction i386 exRoot (run i386 id [exInterceptLast])).sysCallTable 337 =
      some .interceptor ∧
    (State.boot id).sysCallTable 337 = some (.kernel 337) ∧
    ¬ ∀ n, (exitFunction i386 exRoot (run i386 id [exInterceptLast])).sysCallTable n =
      (State.boot id).sysCallTable n := by
  have hslot : (exitFunction i386 exRoot (run i386 id [exInterceptLast])).sysCallTable 337 =
      some .interceptor := by
    rw [exitFunction_sysCallTable rfl (run_reachable _).inv 337]
    decide
  refine ⟨rfl, hslot, rfl, fun hall => ?_⟩
  exact absurd (hslot.symm.trans (hall 337)) (by decide)

end Cscc69.Interceptor
