import Cscc69.Interceptor.Monitoring

/-!
# System calls through the table

The processes reach all of the module through `sys_call_table`: a request is a call of
`MY_CUSTOM_SYSCALL`, an exit one of `__NR_exit_group`, and every other call may find `interceptor`
in its slot. `invoke` runs a handler and what it calls in turn, `interceptor` going on to the
saved `f` of the number in `ax`, and `my_exit_group` to the original `exit_group`.

Each slot holds either the handler it had after loading or `interceptor`, which has this handler
saved (`Hooked`). So every call ends, and it goes through `interceptor` at most once and to its
handler exactly once (`dispatch_eq`, `dispatch_hooked`).
-/

namespace Cscc69.Interceptor

variable {κ : Type*} {K : Kernel} {handlers : ℕ → κ} {s s' : State κ}

/-! ## Running a handler -/

/-- A system call: the process that makes it, whether an allocation on the way succeeds, the
number in `ax` and the first three parameters. -/
structure Syscall where
  caller : Caller
  kmalloc : Bool
  ax : ℕ
  bx : Int
  cx : Int
  dx : Int

/-- The call as a request to `my_syscall`. -/
def Syscall.request (d : Syscall) (K : Kernel) (s : State κ) : State κ :=
  (mySyscall K d.caller d.kmalloc d.bx d.cx d.dx s).2

/-- Run a handler for the call `d`, to a depth of at most `fuel` handlers that call each other:
the handlers that ran, in order, and the state afterwards. Calling a null handler gives `none`. -/
def invoke (K : Kernel) (d : Syscall) :
    ℕ → Option (Handler κ) → State κ → Option (List (Handler κ) × State κ)
  | 0, _, _ => none
  | _ + 1, none, _ => none
  | _ + 1, some (.kernel h), s => some ([.kernel h], s)
  | _ + 1, some .mySyscall, s => some ([.mySyscall], d.request K s)
  | fuel + 1, some .myExitGroup, s =>
    let s := myExitGroup K d.caller.pid s
    (invoke K d fuel s.origExitGroup s).map fun r => (.myExitGroup :: r.1, r.2)
  | fuel + 1, some .interceptor, s =>
    let r := interceptor d.caller.pid d.ax s
    (invoke K d fuel r.2.1 r.2.2).map fun r => (.interceptor :: r.1, r.2)

/-- The kernel takes the handler from the slot of the number in `ax`. -/
def dispatch (K : Kernel) (fuel : ℕ) (d : Syscall) (s : State κ) :
    Option (List (Handler κ) × State κ) :=
  invoke K d fuel (s.sysCallTable d.ax) s

/-- One call that returns, as a step. -/
def Dispatched (K : Kernel) (s : State κ) (d : Syscall) (s' : State κ) : Prop :=
  ∃ fuel calls, dispatch K fuel d s = some (calls, s')

/-! ## The handler of a loaded module -/

/-- The handlers that run when the module does not intercept the number. -/
def loadedCalls (K : Kernel) (handlers : ℕ → κ) (n : ℕ) : List (Handler κ) :=
  if n = K.nrExitGroup then [.myExitGroup, .kernel (handlers n)]
  else if n = myCustomSyscall then [.mySyscall] else [.kernel (handlers n)]

/-- What the handler of the loaded module does to the state. -/
def loadedEffect (K : Kernel) (d : Syscall) (s : State κ) : State κ :=
  if d.ax = K.nrExitGroup then myExitGroup K d.caller.pid s
  else if d.ax = myCustomSyscall then d.request K s else s

theorem inv_loadedEffect (h : Inv K handlers s) (d : Syscall) :
    Inv K handlers (loadedEffect K d s) := by
  unfold loadedEffect
  split
  · exact inv_myExitGroup d.caller.pid h
  split
  · exact inv_mySyscall d.caller d.kmalloc d.bx d.cx d.dx h
  · exact h

theorem invoke_loadedSlot (h : Inv K handlers s) (d : Syscall) (fuel : ℕ) :
    invoke K d (fuel + 2) (loadedSlot K handlers d.ax) s =
      some (loadedCalls K handlers d.ax, loadedEffect K d s) := by
  rw [loadedSlot_eq, loadedCalls, loadedEffect]
  split
  · rename_i hexit
    have horig : (myExitGroup K d.caller.pid s).origExitGroup =
        some (.kernel (handlers K.nrExitGroup)) :=
      congrArg Prod.snd (inv_myExitGroup d.caller.pid h).origs
    simp [invoke, horig, hexit]
  split
  · rfl
  · rfl

/-- **One call.** The handler of the loaded module runs, after `interceptor` if its slot holds
that. -/
theorem dispatch_eq (h : Inv K handlers s) (d : Syscall) (fuel : ℕ) :
    dispatch K (fuel + 3) d s =
      some ((if (s.table d.ax).intercepted = 1 then [.interceptor] else []) ++
        loadedCalls K handlers d.ax, loadedEffect K d s) := by
  unfold dispatch
  obtain ⟨hi, hslot⟩ | ⟨hi, hslot, hf⟩ := h.hooks d.ax
  · rw [hslot, invoke_loadedSlot h d (fuel + 1), hi]
    rfl
  · have hbody := h.interceptor_eq d.caller.pid hslot
    have hsaved : (interceptor d.caller.pid d.ax s).2.1 = loadedSlot K handlers d.ax := hf
    rw [hslot, invoke, hbody, hsaved, invoke_loadedSlot h d fuel, if_pos hi]
    rfl

/-- More fuel changes nothing. -/
theorem invoke_succ {d : Syscall} {fuel : ℕ} {f : Option (Handler κ)}
    {r : List (Handler κ) × State κ} (hr : invoke K d fuel f s = some r) :
    invoke K d (fuel + 1) f s = some r := by
  induction fuel generalizing f s r with
  | zero => cases hr
  | succ fuel ih =>
    match f with
    | none => cases hr
    | some (.kernel k) => exact hr
    | some .mySyscall => exact hr
    | some .myExitGroup =>
      obtain ⟨r', hr', rfl⟩ := Option.map_eq_some_iff.1 hr
      exact Option.map_eq_some_iff.2 ⟨r', ih hr', rfl⟩
    | some .interceptor =>
      obtain ⟨r', hr', rfl⟩ := Option.map_eq_some_iff.1 hr
      exact Option.map_eq_some_iff.2 ⟨r', ih hr', rfl⟩

theorem invoke_add {d : Syscall} {fuel : ℕ} {f : Option (Handler κ)}
    {r : List (Handler κ) × State κ} (hr : invoke K d fuel f s = some r) (k : ℕ) :
    invoke K d (fuel + k) f s = some r := by
  induction k with
  | zero => exact hr
  | succ k ih => exact invoke_succ ih

/-- A call that returns leaves what the handler of the loaded module leaves. -/
theorem Dispatched.eq (h : Inv K handlers s) {d : Syscall} (hd : Dispatched K s d s') :
    s' = loadedEffect K d s := by
  obtain ⟨fuel, calls, hd⟩ := hd
  have hmore := invoke_add hd 3
  have hsome := (dispatch_eq h d fuel).symm.trans hmore
  exact (Prod.mk.inj (Option.some.inj hsome)).2.symm

theorem inv_dispatched (h : Inv K handlers s) {d : Syscall} (hd : Dispatched K s d s') :
    Inv K handlers s' := by
  rw [hd.eq h]
  exact inv_loadedEffect h d

/-! ## Runs of calls -/

/-- The call `d` returns, `interceptor` runs at most once for it, and its handler of the loaded
module exactly once. -/
def ReachesOnce (K : Kernel) (handlers : ℕ → κ) (s : State κ) (d : Syscall) : Prop :=
  ∃ orig before after s', loadedSlot K handlers d.ax = some orig ∧
    (∀ fuel, dispatch K (fuel + 3) d s = some (before ++ orig :: after, s')) ∧
    (before = [] ∨ before = [.interceptor]) ∧ .interceptor ∉ orig :: after ∧
    orig ∉ before ∧ orig ∉ after

theorem loadedCalls_eq_cons (K : Kernel) (handlers : ℕ → κ) (n : ℕ) :
    ∃ orig after, loadedSlot K handlers n = some orig ∧
      loadedCalls K handlers n = orig :: after ∧ .interceptor ∉ orig :: after ∧ orig ∉ after := by
  rw [loadedSlot_eq, loadedCalls]
  split
  · exact ⟨.myExitGroup, [.kernel (handlers n)], rfl, rfl, by simp, by simp⟩
  split
  · exact ⟨.mySyscall, [], rfl, rfl, by simp, by simp⟩
  · exact ⟨.kernel (handlers n), [], rfl, rfl, by simp, by simp⟩

theorem Inv.reachesOnce (h : Inv K handlers s) (d : Syscall) : ReachesOnce K handlers s d := by
  obtain ⟨orig, after, hslot, hcalls, hnot, honce⟩ := loadedCalls_eq_cons K handlers d.ax
  have hne : orig ≠ .interceptor := fun heq => hnot (heq ▸ List.mem_cons_self)
  have hreturns := dispatch_eq h d
  rw [hcalls] at hreturns
  by_cases hi : (s.table d.ax).intercepted = 1
  · simp only [hi, if_true] at hreturns
    exact ⟨orig, [.interceptor], after, _, hslot, hreturns, .inr rfl, hnot,
      fun hmem => hne (List.mem_singleton.1 hmem), honce⟩
  · simp only [hi, if_false] at hreturns
    exact ⟨orig, [], after, _, hslot, hreturns, .inl rfl, hnot, List.not_mem_nil, honce⟩

/-- **The intercept state matches the table.** After any run of system calls, every number that a
request may name is either not intercepted and has its handler in its slot, or is intercepted and
has `interceptor` there and its handler saved; and every call of such a number reaches that
handler exactly once. -/
theorem dispatch_hooked {p : List (Lts.Transition (State κ) Syscall)}
    (hrun : Lts.Run (Dispatched K) (loaded K handlers) p s) :
    (∀ n, 0 < n → n ≤ K.nrSyscalls →
      (s.table n).intercepted = 0 ∧ s.sysCallTable n = loadedSlot K handlers n ∨
      (s.table n).intercepted = 1 ∧ s.sysCallTable n = some .interceptor ∧
        (s.table n).f = loadedSlot K handlers n) ∧
    ∀ d : Syscall, 0 < d.ax → d.ax ≤ K.nrSyscalls → ReachesOnce K handlers s d := by
  have hinv : Inv K handlers s :=
    hrun.invariant (inv_loaded K handlers) fun _ _ _ h hd => inv_dispatched h hd
  exact ⟨fun n _ _ => hinv.hooks n, fun d _ _ => hinv.reachesOnce d⟩

/-- Root intercepts `exit_group` through the table. -/
def exInterceptExit : Syscall := ⟨exRoot, true, 0, requestSyscallIntercept, 252, 0⟩

theorem exInterceptExit_dispatched :
    Dispatched i386 (loaded i386 id) exInterceptExit
      (exInterceptExit.request i386 (loaded i386 id)) := by
  refine ⟨1, [.mySyscall], ?_⟩
  have hslot : (loaded i386 id).sysCallTable exInterceptExit.ax = some .mySyscall := rfl
  rw [dispatch, hslot]
  rfl

/-- With `exit_group` intercepted, an exiting process still reaches `my_exit_group` once. -/
theorem dispatch_hooked_exit :
    ReachesOnce i386 id (exInterceptExit.request i386 (loaded i386 id))
      ⟨exUser, true, 252, 0, 0, 0⟩ :=
  (dispatch_hooked (.snoc .nil exInterceptExit_dispatched)).2 ⟨exUser, true, 252, 0, 0, 0⟩
    (by decide) (by decide)

end Cscc69.Interceptor
