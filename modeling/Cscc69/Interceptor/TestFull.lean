import Cscc69.Interceptor.Effects
import Cscc69.Interceptor.Sessions

/-!
# The module passes its test

`test_full.c` makes requests as root and as guests that it starts, and compares what they return
with what they should. It was written for one system call on an idle machine. But the module passes
it for every number that can be intercepted, is not in use and belongs to a call that returns, at
any time, and whatever else is called between the probes (`testSyscall_passes`). And it passes all
of the program from the moment it is loaded (`testFull_passes`).

On the plain machine the number is in one of four states while the script runs, and each probe goes
from one to the next or is refused.
-/

namespace Cscc69.Interceptor

open Machines

variable {κ : Type*} {K : Kernel} {handlers : ℕ → κ} {s : State κ} {n : ℕ} {m : Monitor}
  {p : Process} {w w' w'' : Watch} {cmd syscall pid status : Int} {returns : Set ℕ}
  {es : List (LoggedCall × Option (Process × Probe))}

/-! ## The test -/

def doIntercept (p : Process) (syscall status : Int) : Process × Probe :=
  (p, .request requestSyscallIntercept syscall p.pid status)

def doRelease (p : Process) (syscall status : Int) : Process × Probe :=
  (p, .request requestSyscallRelease syscall p.pid status)

def doStart (p : Process) (syscall pid status : Int) : Process × Probe :=
  (p, .request requestStartMonitoring syscall (if pid = -1 then p.pid else pid) status)

def doStop (p : Process) (syscall pid status : Int) : Process × Probe :=
  (p, .request requestStopMonitoring syscall pid status)

/-- The process makes the call, and looks for the line when it has returned. -/
def doMonitor (p : Process) (sysno : ℕ) : Process × Probe := (p, .monitor sysno)

def doNonroot (p : Process) (syscall : ℕ) : Script :=
  [doIntercept p syscall (-eperm),
    doRelease p syscall (-eperm),
    doStart p syscall 0 (-eperm),
    doStop p syscall 0 (-eperm),
    doStart p syscall 1 (-eperm),
    doStop p syscall 1 (-eperm),
    doStart p syscall p.pid 0,
    doStart p syscall p.pid (-ebusy),
    doMonitor p syscall,
    doStop p syscall p.pid 0,
    doStop p syscall p.pid (-einval)]

/-- A process that `do_as_guest` starts, `last_child`, and the one that runs the command. They may
be the same. -/
structure Child where
  lastChild : Process
  guest : Process

/-- The guest runs the command and ends, and then the shell does for which `waitpid` waits. -/
def doAsGuest (c : Child) (command : Script) : Script :=
  command ++ (c.guest, .exit) ::
    if c.lastChild.pid = c.guest.pid then [] else [(c.lastChild, .exit)]

/-- The guests that `test_syscall` starts, by their commands. -/
structure Children where
  nonroot : Child
  stop : Child
  start : Child

def testSyscall (root : Process) (c : Children) (syscall : ℕ) : Script :=
  [doIntercept root syscall 0,
    doIntercept root syscall (-ebusy)] ++
  doAsGuest c.nonroot (doNonroot c.nonroot.guest syscall) ++
  [doStart root syscall (-2) (-einval),
    doStart root syscall 0 0,
    doStop root syscall 0 0,
    doStart root syscall 1 0] ++
  doAsGuest c.stop [doStop c.stop.guest syscall 1 (-eperm)] ++
  [doStop root syscall 1 0] ++
  doAsGuest c.start [doStart c.start.guest syscall (-1) 0] ++
  [doStop root syscall c.start.lastChild.pid (-einval),
    doRelease root syscall 0]

/-- `main` between `insmod` and `rmmod`, with the numbers of `exit` and `open`. -/
def testFull (root : Process) (c : Children) (nrExit sysOpen : ℕ) : Script :=
  [(root, .request 100 0 0 (-einval)),
    doIntercept root myCustomSyscall (-einval),
    doRelease root myCustomSyscall (-einval),
    doIntercept root (-1) (-einval),
    doRelease root (-1) (-einval),
    doIntercept root nrExit 0,
    doRelease root nrExit 0] ++
  testSyscall root c sysOpen

/-! ## The script on the plain machine -/

/-- Who runs the test: root, guests that are not, and shells that are neither init nor the process
that waits for them. -/
structure Roles (root : Process) (c : Children) : Prop where
  root_uid : root.uid = 0
  guest : ∀ p ∈ [c.nonroot, c.stop, c.start], 1 < p.guest.pid ∧ p.guest.uid ≠ 0
  lastChild : ∀ p ∈ [c.nonroot, c.stop, c.start],
    1 < p.lastChild.pid ∧ p.lastChild.pid ≠ root.pid

/-- The plain machine that knows something of one number only. -/
def Monitor.only (n : ℕ) (w : Watch) : Monitor := Function.update Monitor.idle n w

/-- An intercepted number that is not monitored. -/
def Watch.ready : Watch := ⟨true, .off, ∅⟩

/-- An intercepted number that is monitored for one pid. -/
def Watch.one (pid : Int) : Watch := ⟨true, .listed, {pid}⟩

theorem only_idle (n : ℕ) : Monitor.only n .idle = .idle :=
  Function.update_eq_self n Monitor.idle

theorem probe_refused (herr : requestError K p.caller cmd syscall pid = some status) :
    m.probe K (p, .request cmd syscall pid status) = some m := by
  simp only [Monitor.probe, Monitor.request, herr, if_true]

theorem probe_accepted (herr : requestError K p.caller cmd n pid = none)
    (hw : w.command true cmd pid = (status, w')) :
    (Monitor.only n w).probe K (p, .request cmd n pid status) = some (.only n w') := by
  have hrequest : (Monitor.only n w).request K p.caller true cmd n pid =
      (status, .only n w') := by
    simp only [Monitor.request, herr, Int.toNat_natCast, Monitor.only, Function.update_self, hw,
      Function.update_idem]
  simp only [Monitor.probe, hrequest, if_true]

theorem probe_exit (hn : 0 < n) (hlt : n < K.nrSyscalls) (p : Process) :
    (Monitor.only n w).probe K (p, .exit) = some (.only n (w.drop p.pid)) := by
  have hexit : (Monitor.only n w).exit K p.pid = .only n (w.drop p.pid) := by
    funext k
    unfold Monitor.exit Monitor.only
    by_cases hk : k = n
    · subst hk
      rw [Function.update_self, Function.update_self, if_pos ⟨hn, hlt⟩]
    · rw [Function.update_of_ne hk, Function.update_of_ne hk]
      show (if 1 ≤ k ∧ k < K.nrSyscalls then Watch.idle.drop p.pid else Watch.idle) = Watch.idle
      rw [Watch.drop_of_notMem (Finset.notMem_empty _), ite_self]
  exact congrArg some hexit

/-- Numbers up to that of `my_syscall` itself are refused, whatever is asked. -/
theorem requestError_nonpos {c : Caller} (h : syscall ≤ 0) :
    requestError K c cmd syscall pid = some (-einval) := by
  have hnum : syscall = (myCustomSyscall : ℕ) ∨ syscall < 0 ∨ syscall > K.nrSyscalls := by
    have h0 : ((myCustomSyscall : ℕ) : Int) = 0 := rfl
    omega
  rw [requestError, if_pos hnum, ite_self]

section Requests

variable {k : Int} (hacc : Accepted K k)
include hacc

theorem Accepted.in_range : ¬ (k = (myCustomSyscall : ℕ) ∨ k < 0 ∨ k > K.nrSyscalls) := by
  have h0 : ((myCustomSyscall : ℕ) : Int) = 0 := rfl
  obtain ⟨hpos, hle⟩ := hacc
  omega

/-- What the checks of the last two commands come to. -/
theorem requestError_monitoring {c : Caller}
    (hcmd : cmd = requestStartMonitoring ∨ cmd = requestStopMonitoring) :
    requestError K c cmd k pid =
      if pid < 0 ∨ (pid > 0 ∧ c.owner pid = none) then some (-einval)
      else if c.uid ≠ 0 then
        if pid ≠ 0 then if c.owner pid ≠ c.owner c.pid then some (-eperm) else none
        else some (-eperm)
      else none := by
  have hvalid : ¬ (cmd ≠ requestSyscallIntercept ∧ cmd ≠ requestSyscallRelease ∧
      cmd ≠ requestStartMonitoring ∧ cmd ≠ requestStopMonitoring) := by
    rcases hcmd with rfl | rfl <;> simp
  have htab : ¬ (cmd = requestSyscallIntercept ∨ cmd = requestSyscallRelease) := by
    rcases hcmd with rfl | rfl <;> decide
  simp only [requestError, if_neg hvalid, if_neg hacc.in_range, if_neg htab, ne_eq,
    checkPidFromList_eq_zero]

/-- A guest may neither intercept nor release. -/
theorem requestError_guest_table (hp : p.uid ≠ 0)
    (hcmd : cmd = requestSyscallIntercept ∨ cmd = requestSyscallRelease) :
    requestError K p.caller cmd k pid = some (-eperm) := by
  have hvalid : ¬ (cmd ≠ requestSyscallIntercept ∧ cmd ≠ requestSyscallRelease ∧
      cmd ≠ requestStartMonitoring ∧ cmd ≠ requestStopMonitoring) := by
    rcases hcmd with rfl | rfl <;> simp
  have huid : p.caller.uid ≠ 0 := hp
  rw [requestError, if_neg hvalid, if_neg hacc.in_range, if_pos hcmd, if_pos huid]

/-- A guest may not name all pids, nor init. -/
theorem requestError_guest (hp : p.uid ≠ 0) (hpid : 1 < p.pid)
    (hcmd : cmd = requestStartMonitoring ∨ cmd = requestStopMonitoring)
    (hnamed : pid = 0 ∨ pid = 1) : requestError K p.caller cmd k pid = some (-eperm) := by
  have hne : (1 : Int) ≠ p.pid := hpid.ne
  rw [requestError_monitoring hacc hcmd]
  rcases hnamed with rfl | rfl
  · simp [Process.caller, hp]
  · simp [Process.caller, hp, hne, Ne.symm hp]

/-- A process may name itself. -/
theorem requestError_self (hpid : 0 < p.pid)
    (hcmd : cmd = requestStartMonitoring ∨ cmd = requestStopMonitoring) :
    requestError K p.caller cmd k p.pid = none := by
  refine (requestError_monitor hcmd).2 ⟨hacc, .inl ⟨hpid, ?_, .inr rfl⟩⟩
  simp [Process.caller]

/-- Root may name all pids, and init. -/
theorem requestError_root (hp : p.uid = 0)
    (hcmd : cmd = requestStartMonitoring ∨ cmd = requestStopMonitoring)
    (hnamed : pid = 0 ∨ pid = 1) : requestError K p.caller cmd k pid = none := by
  refine (requestError_monitor hcmd).2 ⟨hacc, ?_⟩
  rcases hnamed with rfl | rfl
  · exact .inr ⟨rfl, hp⟩
  · refine .inl ⟨by decide, ?_, .inl hp⟩
    simp only [Process.caller]
    split <;> simp

/-- Nobody may name a pid that belongs to no process. -/
theorem requestError_nobody (hcmd : cmd = requestStartMonitoring ∨ cmd = requestStopMonitoring)
    (hnamed : pid < 0 ∨ 1 < pid ∧ pid ≠ p.pid) :
    requestError K p.caller cmd k pid = some (-einval) := by
  rw [requestError_monitoring hacc hcmd, if_pos]
  rcases hnamed with hneg | ⟨hpos, hne⟩
  · exact .inl hneg
  · refine .inr ⟨by omega, ?_⟩
    simp only [Process.caller, if_neg hne, if_neg hpos.ne']

end Requests

section Commands

variable {pid : Int} (hpid : pid ≠ 0)
include hpid

theorem start_ready :
    Watch.ready.command true requestStartMonitoring pid = (0, Watch.one pid) := by
  show Watch.ready.start true pid = _
  simp [Watch.start, Watch.ready, Watch.one, hpid]

theorem start_one :
    (Watch.one pid).command true requestStartMonitoring pid = (-ebusy, Watch.one pid) := by
  show (Watch.one pid).start true pid = _
  simp [Watch.start, Watch.one, hpid]

theorem stop_one :
    (Watch.one pid).command true requestStopMonitoring pid = (0, Watch.ready) := by
  show (Watch.one pid).stop pid = _
  simp [Watch.stop, Watch.one, Watch.ready, Watch.drop, hpid]

theorem stop_ready :
    Watch.ready.command true requestStopMonitoring pid = (-einval, Watch.ready) := by
  show Watch.ready.stop pid = _
  simp [Watch.stop, Watch.ready, hpid]

end Commands

theorem drop_one (pid : Int) : (Watch.one pid).drop pid = .ready := by
  simp [Watch.drop, Watch.one, Watch.ready]

theorem drop_one_of_ne {q : Int} (hq : q ≠ pid) : (Watch.one pid).drop q = .one pid :=
  Watch.drop_of_notMem (by simpa [Watch.one] using hq)

theorem drop_ready (pid : Int) : Watch.ready.drop pid = .ready :=
  Watch.drop_of_notMem (Finset.notMem_empty pid)

theorem doStart_of_ne (hpid : pid ≠ -1) :
    doStart p syscall pid status = (p, .request requestStartMonitoring syscall pid status) := by
  rw [doStart, if_neg hpid]

theorem doStart_current : doStart p syscall (-1) status = doStart p syscall p.pid status := by
  rw [doStart, doStart, if_pos rfl, ite_self]

section Evaluation

variable (hacc : Accepted K n)
include hacc

/-- The probes of a guest on an intercepted number. What it may do, it undoes. -/
theorem doNonroot_ready (hexit : n ≠ K.nrExitGroup) (huid : p.uid ≠ 0) (hpid : 1 < p.pid) :
    (doNonroot p n).foldlM (Monitor.probe K) (.only n .ready) = some (.only n .ready) := by
  have hp : p.pid ≠ 0 := by omega
  have hne : n ≠ myCustomSyscall := by
    have hpos := hacc.1
    show n ≠ 0
    omega
  have hself : ∀ status, doStart p n p.pid status =
      (p, .request requestStartMonitoring n p.pid status) :=
    fun status => doStart_of_ne (by omega)
  have hintercept : Monitor.probe K (.only n .ready) (doIntercept p n (-eperm)) =
      some (.only n .ready) := probe_refused (requestError_guest_table hacc huid (.inl rfl))
  have hrelease : Monitor.probe K (.only n .ready) (doRelease p n (-eperm)) =
      some (.only n .ready) := probe_refused (requestError_guest_table hacc huid (.inr rfl))
  have hstart : ∀ q, q = 0 ∨ q = 1 →
      Monitor.probe K (.only n .ready) (doStart p n q (-eperm)) = some (.only n .ready) := by
    intro q hq
    rw [doStart_of_ne (by omega)]
    exact probe_refused (requestError_guest hacc huid hpid (.inl rfl) hq)
  have hstop : ∀ q, q = 0 ∨ q = 1 →
      Monitor.probe K (.only n .ready) (doStop p n q (-eperm)) = some (.only n .ready) :=
    fun q hq => probe_refused (requestError_guest hacc huid hpid (.inr rfl) hq)
  have hfirst : Monitor.probe K (.only n .ready) (doStart p n p.pid 0) =
      some (.only n (.one p.pid)) := by
    rw [hself]
    exact probe_accepted (requestError_self hacc (by omega) (.inl rfl)) (start_ready hp)
  have hagain : Monitor.probe K (.only n (.one p.pid)) (doStart p n p.pid (-ebusy)) =
      some (.only n (.one p.pid)) := by
    rw [hself]
    exact probe_accepted (requestError_self hacc (by omega) (.inl rfl)) (start_one hp)
  have hmonitor : Monitor.probe K (.only n (.one p.pid)) (doMonitor p n) =
      some (.only n (.one p.pid)) := by
    have hlogs : (Monitor.only n (.one p.pid) n).logs p.pid = true := by
      simp [Monitor.only, Watch.logs, Watch.one]
    exact if_pos ⟨hlogs, hne, hexit⟩
  have hlast : Monitor.probe K (.only n (.one p.pid)) (doStop p n p.pid 0) =
      some (.only n .ready) :=
    probe_accepted (requestError_self hacc (by omega) (.inr rfl)) (stop_one hp)
  have hgone : Monitor.probe K (.only n .ready) (doStop p n p.pid (-einval)) =
      some (.only n .ready) :=
    probe_accepted (requestError_self hacc (by omega) (.inr rfl)) (stop_ready hp)
  simp only [doNonroot, List.foldlM_cons, List.foldlM_nil, hintercept, hrelease,
    hstart 0 (.inl rfl), hstart 1 (.inr rfl), hstop 0 (.inl rfl), hstop 1 (.inr rfl), hfirst,
    hagain, hmonitor, hlast, hgone, Option.bind_eq_bind, Option.bind_some]
  rfl

/-- A guest that ends leaves an intercepted number as its command does, less its pid. Its shell has
not been listed. -/
theorem doAsGuest_eq (hlt : n < K.nrSyscalls) {command : Script} {p : Child}
    (hcommand : command.foldlM (Monitor.probe K) (.only n w) = some (.only n w'))
    (hguest : w'.drop p.guest.pid = w'') (hshell : w''.drop p.lastChild.pid = w'') :
    (doAsGuest p command).foldlM (Monitor.probe K) (.only n w) = some (.only n w'') := by
  have hn : 0 < n := by
    have hpos := hacc.1
    omega
  have hend : ((if p.lastChild.pid = p.guest.pid then [] else [(p.lastChild, .exit)]) :
      Script).foldlM (Monitor.probe K) (.only n w'') = some (.only n w'') := by
    split
    · rfl
    · simp only [List.foldlM_cons, List.foldlM_nil, probe_exit hn hlt, hshell,
        Option.bind_eq_bind, Option.bind_some]
      rfl
  simp only [doAsGuest, List.foldlM_append, hcommand, List.foldlM_cons, probe_exit hn hlt, hguest,
    hend, Option.bind_eq_bind, Option.bind_some]

/-- So does one that makes one probe. -/
theorem doAsGuest_probe (hlt : n < K.nrSyscalls) {x : Process × Probe} {p : Child}
    (hx : (Monitor.only n w).probe K x = some (.only n w')) (hguest : w'.drop p.guest.pid = w'')
    (hshell : w''.drop p.lastChild.pid = w'') :
    (doAsGuest p [x]).foldlM (Monitor.probe K) (.only n w) = some (.only n w'') := by
  refine doAsGuest_eq hacc hlt ?_ hguest hshell
  simp only [List.foldlM_cons, List.foldlM_nil, hx, Option.bind_eq_bind, Option.bind_some,
    Option.pure_def]

variable {root : Process} {c : Children}

/-- **The script alone.** All its probes pass on the plain machine, which ends as it began. -/
theorem testSyscall_idle (hlt : n < K.nrSyscalls) (hexit : n ≠ K.nrExitGroup)
    (hroles : Roles root c) :
    (testSyscall root c n).foldlM (Monitor.probe K) .idle = some .idle := by
  obtain ⟨huid, hguest, hlast⟩ := hroles
  simp only [List.forall_mem_cons] at hguest hlast
  obtain ⟨⟨hpid₁, huid₁⟩, ⟨hpid₂, huid₂⟩, ⟨hpid₃, -⟩, -⟩ := hguest
  obtain ⟨-, ⟨hshell₂, -⟩, hshell₃, -⟩ := hlast
  have htable : ∀ cmd, cmd = requestSyscallIntercept ∨ cmd = requestSyscallRelease →
      requestError K root.caller cmd n root.pid = none :=
    fun cmd hcmd => (requestError_table hcmd).2 ⟨hacc, huid⟩
  have hintercept : Monitor.probe K (.only n .idle) (doIntercept root n 0) =
      some (.only n .ready) := probe_accepted (htable _ (.inl rfl)) rfl
  have hbusy : Monitor.probe K (.only n .ready) (doIntercept root n (-ebusy)) =
      some (.only n .ready) := probe_accepted (htable _ (.inl rfl)) rfl
  have hnonroot : (doAsGuest c.nonroot (doNonroot c.nonroot.guest n)).foldlM (Monitor.probe K)
      (.only n .ready) = some (.only n .ready) :=
    doAsGuest_eq hacc hlt (doNonroot_ready hacc hexit huid₁ hpid₁) (drop_ready _) (drop_ready _)
  have hnegative : Monitor.probe K (.only n .ready) (doStart root n (-2) (-einval)) =
      some (.only n .ready) := by
    rw [doStart_of_ne (by decide)]
    exact probe_refused (requestError_nobody hacc (.inl rfl) (.inl (by decide)))
  have hall : Monitor.probe K (.only n .ready) (doStart root n 0 0) =
      some (.only n ⟨true, .all, ∅⟩) := by
    rw [doStart_of_ne (by decide)]
    exact probe_accepted (requestError_root hacc huid (.inl rfl) (.inl rfl)) rfl
  have hnone : Monitor.probe K (.only n ⟨true, .all, ∅⟩) (doStop root n 0 0) =
      some (.only n .ready) :=
    probe_accepted (requestError_root hacc huid (.inr rfl) (.inl rfl)) rfl
  have hinit : Monitor.probe K (.only n .ready) (doStart root n 1 0) =
      some (.only n (.one 1)) := by
    rw [doStart_of_ne (by decide)]
    exact probe_accepted (requestError_root hacc huid (.inl rfl) (.inr rfl))
      (start_ready (by decide))
  have hstop : (doAsGuest c.stop [doStop c.stop.guest n 1 (-eperm)]).foldlM (Monitor.probe K)
      (.only n (.one 1)) = some (.only n (.one 1)) := by
    have hrefused : Monitor.probe K (.only n (.one 1)) (doStop c.stop.guest n 1 (-eperm)) =
        some (.only n (.one 1)) :=
      probe_refused (requestError_guest hacc huid₂ hpid₂ (.inr rfl) (.inr rfl))
    exact doAsGuest_probe hacc hlt hrefused (drop_one_of_ne (by omega)) (drop_one_of_ne (by omega))
  have huninit : Monitor.probe K (.only n (.one 1)) (doStop root n 1 0) =
      some (.only n .ready) :=
    probe_accepted (requestError_root hacc huid (.inr rfl) (.inr rfl)) (stop_one (by decide))
  have hstart : (doAsGuest c.start [doStart c.start.guest n (-1) 0]).foldlM (Monitor.probe K)
      (.only n .ready) = some (.only n .ready) := by
    have haccepted : Monitor.probe K (.only n .ready) (doStart c.start.guest n (-1) 0) =
        some (.only n (.one c.start.guest.pid)) := by
      rw [doStart_current, doStart_of_ne (by omega)]
      exact probe_accepted (requestError_self hacc (by omega) (.inl rfl)) (start_ready (by omega))
    exact doAsGuest_probe hacc hlt haccepted (drop_one _) (drop_ready _)
  have hended : Monitor.probe K (.only n .ready) (doStop root n c.start.lastChild.pid (-einval)) =
      some (.only n .ready) :=
    probe_refused (requestError_nobody hacc (.inr rfl) (.inr hshell₃))
  have hrelease : Monitor.probe K (.only n .ready) (doRelease root n 0) =
      some (.only n .idle) := probe_accepted (htable _ (.inr rfl)) rfl
  rw [← only_idle n]
  simp only [testSyscall, List.foldlM_append, List.foldlM_cons, List.foldlM_nil, hintercept,
    hbusy, hnonroot, hnegative, hall, hnone, hinit, hstop, huninit, hstart, hended, hrelease,
    Option.bind_eq_bind, Option.bind_some, Option.pure_def]

/-- The probes of `main` come before that, and do nothing that lasts. -/
theorem testFull_idle {sysOpen : ℕ} (hroles : Roles root c)
    (hrest : (testSyscall root c sysOpen).foldlM (Monitor.probe K) .idle = some .idle) :
    (testFull root c n sysOpen).foldlM (Monitor.probe K) .idle = some .idle := by
  have htable : ∀ cmd, cmd = requestSyscallIntercept ∨ cmd = requestSyscallRelease →
      requestError K root.caller cmd n root.pid = none :=
    fun cmd hcmd => (requestError_table hcmd).2 ⟨hacc, hroles.root_uid⟩
  have hbad : Monitor.probe K (.only n .idle) (root, .request 100 0 0 (-einval)) =
      some (.only n .idle) := probe_refused (requestError_nonpos le_rfl)
  have hinterceptBad : ∀ k, k ≤ 0 →
      Monitor.probe K (.only n .idle) (doIntercept root k (-einval)) =
        some (.only n .idle) := fun k hk => probe_refused (requestError_nonpos hk)
  have hreleaseBad : ∀ k, k ≤ 0 →
      Monitor.probe K (.only n .idle) (doRelease root k (-einval)) =
        some (.only n .idle) := fun k hk => probe_refused (requestError_nonpos hk)
  have hintercept : Monitor.probe K (.only n .idle) (doIntercept root n 0) =
      some (.only n .ready) := probe_accepted (htable _ (.inl rfl)) rfl
  have hrelease : Monitor.probe K (.only n .ready) (doRelease root n 0) =
      some (.only n .idle) := probe_accepted (htable _ (.inr rfl)) rfl
  have hzero : ((myCustomSyscall : ℕ) : Int) ≤ 0 := le_rfl
  have hminus : (-1 : Int) ≤ 0 := by decide
  rw [← only_idle n] at hrest ⊢
  simp only [testFull, List.foldlM_append, List.foldlM_cons, List.foldlM_nil, hbad,
    hinterceptBad _ hzero, hreleaseBad _ hzero, hinterceptBad _ hminus, hreleaseBad _ hminus,
    hintercept, hrelease, hrest, Option.bind_eq_bind, Option.bind_some, Option.pure_def]

end Evaluation

/-! ## The module -/

theorem number_doAsGuest (c : Child) {command : Script}
    (h : ∀ x ∈ command, ∀ k ∈ x.2.number, k = n) :
    ∀ x ∈ doAsGuest c command, ∀ k ∈ x.2.number, k = n := by
  intro x hx k hk
  obtain hx | hx := List.mem_append.1 hx
  · exact h x hx k hk
  · split at hx
    · simp only [List.mem_cons, List.not_mem_nil, or_false] at hx
      subst hx
      cases hk
    · simp only [List.mem_cons, List.not_mem_nil, or_false] at hx
      obtain rfl | rfl := hx <;> cases hk

theorem testSyscall_about (root : Process) (c : Children) (n : ℕ) :
    ∀ x ∈ testSyscall root c n, ∀ k ∈ x.2.number, k = n := by
  have hnonroot : ∀ x ∈ doNonroot c.nonroot.guest n, ∀ k ∈ x.2.number, k = n := by
    simp [doNonroot, doIntercept, doRelease, doStart, doStop, doMonitor, Probe.number]
  have hstop : ∀ x ∈ [doStop c.stop.guest n 1 (-eperm)], ∀ k ∈ x.2.number, k = n := by
    simp [doStop, Probe.number]
  have hstart : ∀ x ∈ [doStart c.start.guest n (-1) 0], ∀ k ∈ x.2.number, k = n := by
    simp [doStart, Probe.number]
  simp only [testSyscall, List.forall_mem_append]
  refine ⟨⟨⟨⟨⟨⟨?_, number_doAsGuest _ hnonroot⟩, ?_⟩, number_doAsGuest _ hstop⟩, ?_⟩,
    number_doAsGuest _ hstart⟩, ?_⟩
  all_goals simp [doIntercept, doRelease, doStart, doStop, Probe.number]

variable {root : Process} {c : Children}

/-- **The module passes its test.** At any time, for any number that can be intercepted, is not in
use and belongs to a call that returns to its process, once, if there is memory for the requests,
and among whatever other calls. In the end the number is free again. -/
theorem testSyscall_passes {calls : List LoggedCall} {os₀ : List (Outcome κ)} (hn : 0 < n)
    (hlt : n < K.nrSyscalls) (hends : K.nrExitGroup ∉ returns) (hreturns : n ∈ returns)
    (hroles : Roles root c)
    (hrun : Machines.run (kernelModule K) (loaded K handlers) calls = some (os₀, s))
    (hidle : (s.table n).Idle) (hes : Session K returns (testSyscall root c n) es) :
    ∃ os s', Machines.run (kernelModule K) s (es.map Prod.fst) = some (os, s') ∧ AllPass es os ∧
      (s'.table n).Idle := by
  obtain ⟨m, hmirrors⟩ := exists_mirrors hrun
  have hacc : Accepted K n := ⟨by omega, by omega⟩
  have hexit : n ≠ K.nrExitGroup := ne_of_mem_of_not_mem hreturns hends
  have hnumbers : ∀ k ∈ (testSyscall root c n).numbers, (s.table k).Idle := by
    intro k hk
    rw [numbers_of_about (testSyscall_about root c n) hk]
    exact hidle
  obtain ⟨os, s', hpasses, hall, hend⟩ :=
    hes.passes hmirrors hnumbers (testSyscall_idle hacc hlt hexit hroles)
  exact ⟨os, s', hpasses, hall, hend n ⟨doIntercept root n 0, by simp [testSyscall], by
    simp [doIntercept, Probe.number]⟩⟩

/-- Root as process 100, and guests of the user `nobody`. The shell of the second guest is replaced
by the guest. -/
def exShell : Process := ⟨100, 0⟩
def exChildren : Children where
  nonroot := ⟨⟨101, 0⟩, ⟨102, 65534⟩⟩
  stop := ⟨⟨103, 0⟩, ⟨103, 65534⟩⟩
  start := ⟨⟨105, 0⟩, ⟨106, 65534⟩⟩

theorem exRoles : Roles exShell exChildren where
  root_uid := rfl
  guest := by decide
  lastChild := by decide

/-- Another process of root calls `open`, intercepts and releases number 20, and ends. -/
def exOthers : List LoggedCall :=
  [.monitor 5, .request requestSyscallIntercept 20 300 0, .request requestSyscallRelease 20 300 0,
    .exit].map (Probe.call i386 ⟨300, 0⟩)

/-- Not the calls that end the process, start another one, or run another program in it. -/
def exReturns : Set ℕ := {k | k ∉ [1, 2, 11, 120, 190, 252]}

instance (k : ℕ) : Decidable (k ∈ exReturns) :=
  inferInstanceAs (Decidable (k ∉ [1, 2, 11, 120, 190, 252]))

/-- The test of `open` on a module that has just been loaded, with the calls of another process
before each probe. -/
theorem testSyscall_passes_open :
    ∃ os s', Machines.run (kernelModule i386) (loaded i386 id)
        (((testSyscall exShell exChildren 5).among i386 exOthers).map Prod.fst) = some (os, s') ∧
      AllPass ((testSyscall exShell exChildren 5).among i386 exOthers) os ∧
      (s'.table 5).Idle := by
  have hrun : Machines.run (kernelModule i386) (loaded i386 id) [] =
      some ([], loaded i386 id) := rfl
  exact testSyscall_passes (by decide) (by decide) (by decide : i386.nrExitGroup ∉ exReturns)
    (by decide) exRoles hrun ⟨rfl, rfl, rfl⟩ (session_among (by decide +kernel) (by decide))

/-- **The module passes all of the program**, from the moment it is loaded. -/
theorem testFull_passes {nrExit sysOpen : ℕ} (hpos : 0 < nrExit) (hle : nrExit ≤ K.nrSyscalls)
    (hopen : 0 < sysOpen) (hlt : sysOpen < K.nrSyscalls) (hends : K.nrExitGroup ∉ returns)
    (hreturns : sysOpen ∈ returns) (hroles : Roles root c)
    (hes : Session K returns (testFull root c nrExit sysOpen) es) :
    ∃ os s', Machines.run (kernelModule K) (loaded K handlers) (es.map Prod.fst) =
        some (os, s') ∧ AllPass es os ∧ (s'.table nrExit).Idle ∧ (s'.table sysOpen).Idle := by
  have hidle : ∀ k, ((loaded K handlers).table k).Idle := fun k =>
    ((mirrors_loaded K handlers).shows k).idle_iff.2 rfl
  have hexits : Accepted K nrExit := ⟨by omega, by omega⟩
  have hopens : Accepted K sysOpen := ⟨by omega, by omega⟩
  have hexit : sysOpen ≠ K.nrExitGroup := ne_of_mem_of_not_mem hreturns hends
  have hv := testFull_idle hexits hroles (testSyscall_idle hopens hlt hexit hroles)
  obtain ⟨os, s', hpasses, hall, hend⟩ :=
    hes.passes (mirrors_loaded K handlers) (fun k _ => hidle k) hv
  refine ⟨os, s', hpasses, hall, hend _ ?_, hend _ ?_⟩
  · exact ⟨doIntercept root nrExit 0, by simp [testFull], by simp [doIntercept, Probe.number]⟩
  · exact ⟨doIntercept root sysOpen 0, by simp [testFull, testSyscall], by
      simp [doIntercept, Probe.number]⟩

/-- The program with the numbers of a 32-bit machine, and the calls of another process before each
probe. -/
theorem testFull_passes_among :
    ∃ os s', Machines.run (kernelModule i386) (loaded i386 id)
        (((testFull exShell exChildren 1 5).among i386 exOthers).map Prod.fst) = some (os, s') ∧
      AllPass ((testFull exShell exChildren 1 5).among i386 exOthers) os ∧
      (s'.table 1).Idle ∧ (s'.table 5).Idle :=
  testFull_passes (by decide) (by decide) (by decide) (by decide)
    (by decide : i386.nrExitGroup ∉ exReturns) (by decide) exRoles
    (session_among (by decide +kernel) (by decide))

end Cscc69.Interceptor
