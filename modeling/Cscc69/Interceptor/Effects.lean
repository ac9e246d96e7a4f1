import Cscc69.Interceptor.Commands

/-!
# What one request can do

`Effect` is the inversion of `my_syscall`: the ways in which a request can change the entry and
the slot of the syscall it names, with the value it returns and the guards it passed.
`mySyscall_cases` says that a request does one of these things to one entry and slot and leaves
every other alone. `mySyscall_start` and `mySyscall_stop` say what the two monitoring commands
return for a pid that the caller may name.
-/

namespace Cscc69.Interceptor

variable {κ : Type*} {K : Kernel} {c : Caller} {kmalloc : Bool} {cmd syscall pid : Int}
  {s : State κ}

/-! ## Permissions -/

/-- The caller may name the live process `pid`: it is root or has the same owner. -/
def MayName (c : Caller) (pid : Int) : Prop :=
  0 < pid ∧ c.owner pid ≠ none ∧ (c.uid = 0 ∨ c.owner pid = c.owner c.pid)

instance (c : Caller) (pid : Int) : Decidable (MayName c pid) := by
  unfold MayName; infer_instance

/-- The numbers `my_syscall` accepts. -/
def Accepted (K : Kernel) (syscall : Int) : Prop := 0 < syscall ∧ syscall ≤ K.nrSyscalls

instance (K : Kernel) (syscall : Int) : Decidable (Accepted K syscall) := by
  unfold Accepted; infer_instance

@[simp] theorem checkPidFromList_eq_zero {pid₁ pid₂ : Int} :
    checkPidFromList c pid₁ pid₂ = 0 ↔ c.owner pid₁ = c.owner pid₂ := by
  unfold checkPidFromList
  split <;> simp_all [eperm]

theorem requestError_neg {err : Int} (h : requestError K c cmd syscall pid = some err) :
    err < 0 := by
  unfold requestError at h
  repeat' split at h
  all_goals cases h <;> decide

theorem requestError_accepted (h : requestError K c cmd syscall pid = none) :
    Accepted K syscall := by
  unfold requestError at h
  split at h
  · cases h
  · split at h
    · cases h
    · rename_i hr
      have h0 : ((myCustomSyscall : ℕ) : Int) = 0 := rfl
      exact ⟨by omega, by omega⟩

theorem requestError_cmd (h : requestError K c cmd syscall pid = none)
    (hi : cmd ≠ requestSyscallIntercept) (hr : cmd ≠ requestSyscallRelease)
    (hs : cmd ≠ requestStartMonitoring) : cmd = requestStopMonitoring := by
  by_contra hst
  rw [requestError, if_pos ⟨hi, hr, hs, hst⟩] at h
  cases h

/-- A request for one of the first two commands passes the checks just if it names an accepted
number and comes from root. -/
theorem requestError_table (hcmd : cmd = requestSyscallIntercept ∨ cmd = requestSyscallRelease) :
    requestError K c cmd syscall pid = none ↔ Accepted K syscall ∧ c.uid = 0 := by
  have hvalid : ¬ (cmd ≠ requestSyscallIntercept ∧ cmd ≠ requestSyscallRelease ∧
      cmd ≠ requestStartMonitoring ∧ cmd ≠ requestStopMonitoring) := by
    rcases hcmd with rfl | rfl <;> simp
  unfold requestError Accepted
  rw [if_neg hvalid, if_pos hcmd]
  have h0 : ((myCustomSyscall : ℕ) : Int) = 0 := rfl
  by_cases hr : syscall = (myCustomSyscall : ℕ) ∨ syscall < 0 ∨ syscall > K.nrSyscalls
  · rw [if_pos hr]
    simp only [reduceCtorEq, false_iff, not_and]
    intro h; omega
  · rw [if_neg hr]
    split
    · simp_all
    · rename_i hu
      simp only [true_iff]
      exact ⟨by omega, not_not.mp hu⟩

/-- A request for one of the last two commands passes the checks just if it names an accepted
number and a pid the caller may name, or all pids and comes from root. -/
theorem requestError_monitor (hcmd : cmd = requestStartMonitoring ∨ cmd = requestStopMonitoring) :
    requestError K c cmd syscall pid = none ↔
      Accepted K syscall ∧ (MayName c pid ∨ pid = 0 ∧ c.uid = 0) := by
  have hvalid : ¬ (cmd ≠ requestSyscallIntercept ∧ cmd ≠ requestSyscallRelease ∧
      cmd ≠ requestStartMonitoring ∧ cmd ≠ requestStopMonitoring) := by
    rcases hcmd with rfl | rfl <;> simp
  have htab : ¬ (cmd = requestSyscallIntercept ∨ cmd = requestSyscallRelease) := by
    rcases hcmd with rfl | rfl <;> decide
  unfold requestError Accepted MayName
  rw [if_neg hvalid, if_neg htab]
  have h0 : ((myCustomSyscall : ℕ) : Int) = 0 := rfl
  by_cases hr : syscall = (myCustomSyscall : ℕ) ∨ syscall < 0 ∨ syscall > K.nrSyscalls
  · rw [if_pos hr]
    simp only [reduceCtorEq, false_iff, not_and]
    intro h; omega
  · have hacc : 0 < syscall ∧ syscall ≤ (K.nrSyscalls : Int) := by omega
    rw [if_neg hr]
    simp only [hacc, and_self, true_and]
    rcases lt_trichotomy pid 0 with hp | hp | hp
    · simp only [hp, true_or, if_true, reduceCtorEq, false_iff]
      omega
    · subst hp
      by_cases hu : c.uid = 0 <;> simp [hu]
    · by_cases ho : c.owner pid = none
      · simp [hp, ho, hp.ne']
      · have hlt : ¬ pid < 0 := hp.not_gt
        by_cases hu : c.uid = 0
        · simp [hp, ho, hu, hlt]
        · by_cases hc : c.owner pid = c.owner c.pid <;> simp [hp, hp.ne', ho, hu, hc, hlt]

/-! ## All requests -/

/-- What a request can do to the entry `e` and the slot `h` of the syscall it names: `Effect c cmd
pid e h r e' h'` if it returns `r` and leaves `e'` and `h'`. -/
inductive Effect (c : Caller) (cmd pid : Int) (e : Mytable κ) (h : Option (Handler κ)) :
    Int → Mytable κ → Option (Handler κ) → Prop
  | refused {r : Int} : r < 0 → Effect c cmd pid e h r e h
  | intercepted : cmd = requestSyscallIntercept → c.uid = 0 → e.intercepted ≠ 1 →
      Effect c cmd pid e h 0 { e with f := h, intercepted := 1 } (some .interceptor)
  | released : cmd = requestSyscallRelease → c.uid = 0 → e.intercepted ≠ 0 →
      Effect c cmd pid e h 0 { e with intercepted := 0 } e.f
  | started : cmd = requestStartMonitoring → MayName c pid → pid ∉ e.myList →
      Effect c cmd pid e h 0
        { e with
          monitored := if e.monitored = 0 then 1 else e.monitored,
          myList := pid :: e.myList, listcount := e.listcount + 1 } h
  | outOfMemory : cmd = requestStartMonitoring → MayName c pid → pid ∉ e.myList →
      Effect c cmd pid e h (-enomem)
        { e with monitored := if e.monitored = 0 then 1 else e.monitored } h
  | startedAll : cmd = requestStartMonitoring → c.uid = 0 → pid = 0 →
      e.monitored ≠ 2 → e.monitored ≠ 1 → Effect c cmd pid e h 0 { e with monitored := 2 } h
  | stopped : cmd = requestStopMonitoring → MayName c pid → e.intercepted ≠ 0 → pid ∈ e.myList →
      Effect c cmd pid e h 0
        (({ e with monitored := if e.monitored = 2 then 1 else 0 } : Mytable κ).unlink pid) h
  | stoppedAll : cmd = requestStopMonitoring → c.uid = 0 → pid = 0 → e.intercepted ≠ 0 →
      e.monitored = 2 →
      Effect c cmd pid e h 0 { e with myList := [], listcount := 0, monitored := 0 } h

/-- From `s`, a command on syscall `n` may return `r` and leave `s'`: it changes at most slot and
entry `n`, as `Effect` allows. -/
structure Does (c : Caller) (cmd pid : Int) (n : ℕ) (s : State κ) (r : Int) (s' : State κ) :
    Prop where
  origs : s'.origs = s.origs
  effect : ∃ e' h', s'.table = Function.update s.table n e' ∧
    s'.sysCallTable = Function.update s.sysCallTable n h' ∧
    Effect c cmd pid (s.table n) (s.sysCallTable n) r e' h'

/-- A command that leaves the slots alone. -/
theorem Does.of_table {n : ℕ} {r : Int} {s' : State κ} {e' : Mytable κ}
    (ho : s'.origs = s.origs) (ht : s'.table = Function.update s.table n e')
    (hs : s'.sysCallTable = s.sysCallTable)
    (heff : Effect c cmd pid (s.table n) (s.sysCallTable n) r e' (s.sysCallTable n)) :
    Does c cmd pid n s r s' :=
  ⟨ho, e', s.sysCallTable n, ht, by rw [hs, Function.update_eq_self], heff⟩

/-- A refusal leaves the entry as well. -/
theorem Does.of_refused {n : ℕ} {r : Int} {s' : State κ}
    (ho : s'.origs = s.origs) (ht : s'.table = s.table) (hs : s'.sysCallTable = s.sysCallTable)
    (hr : r < 0) :
    Does c cmd pid n s r s' :=
  .of_table ho (by rw [ht, Function.update_eq_self]) hs (.refused hr)

theorem ebusy_neg : -ebusy < 0 := by decide
theorem einval_neg : -einval < 0 := by decide

theorem intercept_does (hcmd : cmd = requestSyscallIntercept) (hroot : c.uid = 0) (n : ℕ)
    (s : State κ) : Does c cmd pid n s (intercept n s).1 (intercept n s).2 := by
  unfold intercept
  split
  · exact .of_refused rfl rfl rfl ebusy_neg
  · rename_i hint
    exact ⟨rfl, _, _, rfl, rfl, .intercepted hcmd hroot hint⟩

theorem release_does (hcmd : cmd = requestSyscallRelease) (hroot : c.uid = 0) (n : ℕ)
    (s : State κ) : Does c cmd pid n s (release n s).1 (release n s).2 := by
  unfold release
  split
  · exact .of_refused rfl rfl rfl einval_neg
  · rename_i hint
    exact ⟨rfl, _, _, rfl, rfl, .released hcmd hroot hint⟩

theorem startMonitoring_does (hcmd : cmd = requestStartMonitoring)
    (hname : MayName c pid ∨ pid = 0 ∧ c.uid = 0) (kmalloc : Bool) (n : ℕ) (s : State κ) :
    Does c cmd pid n s (startMonitoring kmalloc n pid s).1 (startMonitoring kmalloc n pid s).2 := by
  unfold startMonitoring
  rcases hname with hname | ⟨hp, hroot⟩
  · rw [if_pos hname.1.ne']
    dsimp only
    split
    · exact .of_refused rfl rfl rfl ebusy_neg
    · rename_i hmem
      have hmem : pid ∉ (s.table n).myList := by simpa using hmem
      by_cases hm : (s.table n).monitored = 0 <;> cases kmalloc
      · exact .of_table (by simp [hm, addPidSysc]) (by simp [hm, addPidSysc])
          (by simp [hm, addPidSysc]) (.outOfMemory hcmd hname hmem)
      · exact .of_table (by simp [hm, addPidSysc])
          (by simp [hm, addPidSysc, Function.update_idem]) (by simp [hm, addPidSysc])
          (.started hcmd hname hmem)
      · exact .of_table (by simp [hm, addPidSysc]) (by simp [hm, addPidSysc])
          (by simp [hm, addPidSysc]) (.outOfMemory hcmd hname hmem)
      · exact .of_table (by simp [hm, addPidSysc]) (by simp [hm, addPidSysc])
          (by simp [hm, addPidSysc]) (.started hcmd hname hmem)
  · rw [if_neg (not_not.mpr hp)]
    dsimp only
    split
    · exact .of_refused rfl rfl rfl ebusy_neg
    · rename_i hm
      rw [State.lockCalltable_table, not_or] at hm
      exact .of_table rfl rfl rfl (.startedAll hcmd hroot hp hm.1 hm.2)

theorem stopMonitoring_does (hcmd : cmd = requestStopMonitoring)
    (hname : MayName c pid ∨ pid = 0 ∧ c.uid = 0) (n : ℕ) (s : State κ) :
    Does c cmd pid n s (stopMonitoring n pid s).1 (stopMonitoring n pid s).2 := by
  unfold stopMonitoring
  dsimp only
  split
  · exact .of_refused rfl rfl rfl einval_neg
  · rename_i hint
    have hint : (s.table n).intercepted ≠ 0 := hint
    rcases hname with hname | ⟨hp, hroot⟩
    · rw [if_pos hname.1.ne']
      split
      · exact .of_refused rfl rfl rfl einval_neg
      · rename_i hmem
        have hmem : pid ∈ (s.table n).myList := by simpa using hmem
        have hdel : ∀ s₁ : State κ, (s₁.table n).myList = (s.table n).myList →
            delPidSysc pid n s₁ = (0, s₁.setEntry n ((s₁.table n).unlink pid)) :=
          fun s₁ h => if_pos (by rw [h]; exact hmem)
        have heff := Effect.stopped (h := s.sysCallTable n) hcmd hname hint hmem
        by_cases hm : (s.table n).monitored = 2
        · rw [if_pos hm] at heff
          rw [hdel _ (by simp [hm])]
          exact .of_table (by simp [hm])
            (by simp [hm, Function.update_idem]) (by simp [hm]) heff
        · rw [if_neg hm] at heff
          rw [hdel _ (by simp [hm])]
          exact .of_table (by simp [hm])
            (by simp [hm, Function.update_idem]) (by simp [hm]) heff
    · rw [if_neg (not_not.mpr hp)]
      split
      · rename_i hm
        exact .of_table rfl rfl rfl (.stoppedAll hcmd hroot hp hint hm)
      · exact .of_refused rfl rfl rfl einval_neg

/-- **All that a request can do.** It is refused before the state is looked at, or it does to one
entry and slot what `Effect` allows. -/
theorem mySyscall_cases (K : Kernel) (c : Caller) (kmalloc : Bool) (cmd syscall pid : Int)
    (s : State κ) :
    let r := mySyscall K c kmalloc cmd syscall pid s
    (r.1 < 0 ∧ r.2 = s) ∨
    ∃ n : ℕ, syscall = n ∧ 0 < n ∧ n ≤ K.nrSyscalls ∧ Does c cmd pid n s r.1 r.2 := by
  intro r
  cases herr : requestError K c cmd syscall pid with
  | some err =>
    have hr : r = (err, s) := by simp only [r, mySyscall, herr]
    exact .inl ⟨by rw [hr]; exact requestError_neg herr, by rw [hr]⟩
  | none =>
    right
    have hacc : Accepted K syscall := requestError_accepted herr
    obtain ⟨n, rfl⟩ : ∃ n : ℕ, syscall = n := ⟨syscall.toNat, by have := hacc.1; omega⟩
    refine ⟨n, rfl, by have := hacc.1; omega, by have := hacc.2; omega, ?_⟩
    simp only [r, mySyscall, herr, Int.toNat_natCast]
    split
    · rename_i hcmd
      exact intercept_does hcmd ((requestError_table (.inl hcmd)).1 herr).2 n s
    split
    · rename_i hcmd
      exact release_does hcmd ((requestError_table (.inr hcmd)).1 herr).2 n s
    split
    · rename_i hcmd
      exact startMonitoring_does hcmd ((requestError_monitor (.inl hcmd)).1 herr).2 kmalloc n s
    · rename_i h1 h2 h3
      have hcmd : cmd = requestStopMonitoring := requestError_cmd herr h1 h2 h3
      exact stopMonitoring_does hcmd ((requestError_monitor (.inr hcmd)).1 herr).2 n s

/-! ## The monitoring commands for one pid -/

/-- A request that passes the checks runs its command. -/
theorem mySyscall_startMonitoring {n : ℕ} (hn : 0 < n) (hK : n ≤ K.nrSyscalls)
    (hpid : MayName c pid) :
    mySyscall K c kmalloc requestStartMonitoring n pid s = startMonitoring kmalloc n pid s := by
  have herr : requestError K c requestStartMonitoring n pid = none :=
    (requestError_monitor (.inl rfl)).2 ⟨⟨by omega, by omega⟩, .inl hpid⟩
  simp only [mySyscall, herr]
  rfl

theorem mySyscall_stopMonitoring {n : ℕ} (hn : 0 < n) (hK : n ≤ K.nrSyscalls)
    (hpid : MayName c pid) :
    mySyscall K c kmalloc requestStopMonitoring n pid s = stopMonitoring n pid s := by
  have herr : requestError K c requestStopMonitoring n pid = none :=
    (requestError_monitor (.inr rfl)).2 ⟨⟨by omega, by omega⟩, .inl hpid⟩
  simp only [mySyscall, herr]
  rfl

/-- What START returns for a pid. -/
theorem startMonitoring_result (hp : pid ≠ 0) (n : ℕ) :
    (startMonitoring kmalloc n pid s).1 =
      if pid ∈ (s.table n).myList then -ebusy else if kmalloc then 0 else -enomem := by
  unfold startMonitoring
  rw [if_pos hp]
  dsimp only
  by_cases hmem : pid ∈ (s.table n).myList
  · simp [hmem]
  · by_cases hm : (s.table n).monitored = 0 <;> cases kmalloc <;> simp [hmem, hm, addPidSysc]

/-- What STOP returns for a pid on an intercepted syscall. -/
theorem stopMonitoring_result (hp : pid ≠ 0) {n : ℕ} (hi : (s.table n).intercepted ≠ 0) :
    (stopMonitoring n pid s).1 = if pid ∈ (s.table n).myList then 0 else -einval := by
  unfold stopMonitoring
  simp only [State.lockCalltable_table, hi, if_false, hp, ne_eq, not_false_eq_true, if_true]
  by_cases hmem : pid ∈ (s.table n).myList
  · by_cases hm : (s.table n).monitored = 2 <;> simp [hmem, hm, delPidSysc]
  · simp [hmem]

end Cscc69.Interceptor
