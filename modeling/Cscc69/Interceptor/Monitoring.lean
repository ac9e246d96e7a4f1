import Cscc69.Interceptor.Invariants

/-!
# Monitoring: return codes and the log, and what other users can disturb

The interceptor logs a call of `n` by `pid` if `pid` is in the list of `n` or `n` is monitored for
all pids. The two per-pid commands look only at the list. So their codes agree with the log
unless `n` is monitored for all pids and `pid` is not in the list; then START answers 0 although
the pid is logged, and STOP answers `-EINVAL` although it is (`agreesWithLog_iff`).

STOP for a single pid also moves the flag from 2 to 1, which ends the monitoring of all pids. This
is the only way in which a caller other than root can change what is logged of anybody else
(`undisturbed_iff`).
-/

namespace Cscc69.Interceptor

variable {κ : Type*} {K : Kernel} {handlers : ℕ → κ} {s : State κ} {c : Caller} {n : ℕ}
  {pid : Int}

/-! ## Logged from now on -/

/-- Events that may end the logging of `n` for `pid`: a STOP for this pid or for all pids, and
the end of the process. -/
def Event.Stops (n : ℕ) (pid : Int) : Event → Prop
  | .request _ _ cmd syscall q => cmd = requestStopMonitoring ∧ syscall = n ∧ (q = pid ∨ q = 0)
  | .exitGroup q => q = pid
  | .call _ _ => False

/-- Events that may begin it: a START for this pid or for all pids. -/
def Event.Starts (n : ℕ) (pid : Int) : Event → Prop
  | .request _ _ cmd syscall q => cmd = requestStartMonitoring ∧ syscall = n ∧ (q = pid ∨ q = 0)
  | .exitGroup _ => False
  | .call _ _ => False

/-- From `s` on, calls of `n` by `pid` are logged as long as nothing stops it. -/
def LoggedFrom (K : Kernel) (s : State κ) (n : ℕ) (pid : Int) : Prop :=
  ∀ h s', Lts.Run (Lts.ofFun (step K)) s h s' → (∀ t ∈ h, ¬ t.event.Stops n pid) → Logs s' n pid

/-- From `s` on, calls of `n` by `pid` are not logged as long as nothing starts it. -/
def UnloggedFrom (K : Kernel) (s : State κ) (n : ℕ) (pid : Int) : Prop :=
  ∀ h s', Lts.Run (Lts.ofFun (step K)) s h s' → (∀ t ∈ h, ¬ t.event.Starts n pid) →
    ¬ Logs s' n pid

/-- Entry `n` after an event is the old one, what a request on `n` makes of it, or what `del_pid`
leaves of it. -/
theorem step_entry (h : Inv K handlers s) (e : Event) (n : ℕ) :
    (step K s e).table n = s.table n ∨
    (∃ c kmalloc cmd q r h', e = .request c kmalloc cmd n q ∧
      Effect c cmd q (s.table n) (s.sysCallTable n) r ((step K s e).table n) h') ∨
    ∃ q, e = .exitGroup q ∧ (step K s e).table n = (s.table n).delPid q := by
  cases e with
  | request c kmalloc cmd syscall q =>
    rcases mySyscall_cases K c kmalloc cmd syscall q s with
      ⟨_, heq⟩ | ⟨m, rfl, -, -, -, e', h', ht, -, heff⟩
    · exact .inl (by simp only [step, heq])
    · by_cases hm : n = m
      · subst hm
        refine .inr (.inl ⟨c, kmalloc, cmd, q, (mySyscall K c kmalloc cmd n q s).1, h', rfl, ?_⟩)
        simp only [step, ht, Function.update_self]
        exact heff
      · exact .inl (by simp only [step, ht, Function.update_of_ne hm])
  | exitGroup q =>
    simp only [step, myExitGroup_table]
    split
    · exact .inr (.inr ⟨q, rfl, rfl⟩)
    · exact .inl rfl
  | call q m =>
    left
    simp only [step]
    split
    · rename_i hslot
      rw [h.interceptor_eq q hslot]
    · rfl

/-- A pid in the list stays there until something stops it. -/
theorem mem_step (h : Inv K handlers s) {e : Event} (hstop : ¬ e.Stops n pid)
    (hmem : pid ∈ (s.table n).myList) : pid ∈ ((step K s e).table n).myList := by
  rcases step_entry h e n with heq | ⟨c, kmalloc, cmd, q, r, h', rfl, heff⟩ | ⟨q, rfl, heq⟩
  · rw [heq]; exact hmem
  · generalize (step K s _).table n = e' at heff
    cases heff with
    | refused _ | intercepted _ _ _ | released _ _ _ | outOfMemory _ _ _
    | startedAll _ _ _ _ _ => exact hmem
    | started _ _ _ => exact List.mem_cons_of_mem _ hmem
    | stopped hcmd _ _ _ =>
      have hq : pid ≠ q := fun heq => hstop ⟨hcmd, rfl, .inl heq.symm⟩
      rw [Mytable.unlink_myList]
      exact (List.mem_erase_of_ne hq).2 hmem
    | stoppedAll hcmd _ hq _ _ => exact absurd ⟨hcmd, rfl, .inr hq⟩ hstop
  · have hq : pid ≠ q := fun heq => hstop heq.symm
    rw [heq, Mytable.delPid_of_nodup q (h.lists n).nodup]
    split
    · rw [Mytable.unlink_myList]
      exact (List.mem_erase_of_ne hq).2 hmem
    · exact hmem

/-- Calls that are not logged stay so until something starts it. -/
theorem not_logs_step (h : Inv K handlers s) {e : Event} (hstart : ¬ e.Starts n pid)
    (hlog : ¬ Logs s n pid) : ¬ Logs (step K s e) n pid := by
  rw [logs_iff, not_or] at hlog ⊢
  obtain ⟨hmem, hflag⟩ := hlog
  rcases step_entry h e n with heq | ⟨c, kmalloc, cmd, q, r, h', rfl, heff⟩ | ⟨q, rfl, heq⟩
  · rw [heq]; exact ⟨hmem, hflag⟩
  · generalize (step K s _).table n = e' at heff
    cases heff with
    | refused _ | intercepted _ _ _ | released _ _ _ => exact ⟨hmem, hflag⟩
    | outOfMemory _ _ _ =>
      refine ⟨hmem, ?_⟩
      dsimp only
      split
      · decide
      · exact hflag
    | startedAll hcmd _ hq _ _ => exact absurd ⟨hcmd, rfl, .inr hq⟩ hstart
    | started hcmd _ _ =>
      have hq : pid ≠ q := fun heq => hstart ⟨hcmd, rfl, .inl heq.symm⟩
      refine ⟨fun hin => ?_, ?_⟩
      · rcases List.mem_cons.1 hin with heq | hin
        · exact hq heq
        · exact hmem hin
      · dsimp only
        split
        · decide
        · exact hflag
    | stopped _ _ _ _ =>
      rw [Mytable.unlink_myList, Mytable.unlink_monitored_eq_two]
      refine ⟨fun hin => hmem (List.mem_of_mem_erase hin), ?_⟩
      dsimp only
      split <;> decide
    | stoppedAll _ _ _ _ _ => exact ⟨by simp, by simp⟩
  · rw [heq, Mytable.delPid_of_nodup q (h.lists n).nodup]
    split
    · rw [Mytable.unlink_myList, Mytable.unlink_monitored_eq_two]
      exact ⟨fun hin => hmem (List.mem_of_mem_erase hin), hflag⟩
    · exact ⟨hmem, hflag⟩

theorem loggedFrom_of_mem (h : Inv K handlers s) (hmem : pid ∈ (s.table n).myList) :
    LoggedFrom K s n pid := by
  intro p s' hrun hstop
  have hinv := hrun.invariant_while
    (I := fun s => Inv K handlers s ∧ pid ∈ (s.table n).myList)
    (C := fun _ e => ¬ e.Stops n pid) ⟨h, hmem⟩ ?_ hstop
  · exact logs_iff.2 (.inl hinv.2)
  · rintro s e t ⟨hi, hm⟩ hC hst
    rw [← Lts.ofFun_iff.1 hst]
    exact ⟨inv_step hi e, mem_step hi hC hm⟩

theorem unloggedFrom_of_not_logs (h : Inv K handlers s) (hlog : ¬ Logs s n pid) :
    UnloggedFrom K s n pid := by
  intro p s' hrun hstart
  have hinv := hrun.invariant_while
    (I := fun s => Inv K handlers s ∧ ¬ Logs s n pid)
    (C := fun _ e => ¬ e.Starts n pid) ⟨h, hlog⟩ ?_ hstart
  · exact hinv.2
  · rintro s e t ⟨hi, hm⟩ hC hst
    rw [← Lts.ofFun_iff.1 hst]
    exact ⟨inv_step hi e, not_logs_step hi hC hm⟩

/-! ## A machine to run on -/

/-- A kernel with 337 system calls, of which `exit_group` is number 252. -/
def i386 : Kernel := ⟨337, 252, by decide, by decide⟩

/-- Pids 1, 8 and 9 are live; pid 1 belongs to root and the others to user 1000. -/
def exOwner (pid : Int) : Option ℕ :=
  if pid = 1 then some 0 else if pid = 8 ∨ pid = 9 then some 1000 else none

def exRoot : Caller := ⟨1, 0, exOwner, rfl⟩
def exUser : Caller := ⟨8, 1000, exOwner, rfl⟩

/-- Some requests after loading, from a machine whose handlers are numbered. -/
def exRun (es : List Event) : State ℕ := run i386 id es

theorem exRun_reachable (es : List Event) : Reachable i386 id (exRun es) := run_reachable es

/-- Root intercepts syscall 5. -/
def exIntercept : Event := .request exRoot true requestSyscallIntercept 5 0

/-- Root starts monitoring syscall 5 for all pids. -/
def exStartAll : Event := .request exRoot true requestStartMonitoring 5 0

/-! ## Return codes agree with the log -/

/-- In `s`, what the two per-pid commands answer `c` about `n` and `pid` is what the log says, and
a command that answers 0 has the effect that it names from then on. -/
structure AgreesWithLog (K : Kernel) (s : State κ) (c : Caller) (n : ℕ) (pid : Int) : Prop where
  start_busy : ∀ kmalloc,
    (mySyscall K c kmalloc requestStartMonitoring n pid s).1 = -ebusy ↔ Logs s n pid
  start_ok : ¬ Logs s n pid →
    (mySyscall K c true requestStartMonitoring n pid s).1 = 0 ∧
      LoggedFrom K (mySyscall K c true requestStartMonitoring n pid s).2 n pid
  stop_inval : ∀ kmalloc,
    (mySyscall K c kmalloc requestStopMonitoring n pid s).1 = -einval ↔ ¬ Logs s n pid
  stop_ok : ∀ kmalloc, Logs s n pid →
    (mySyscall K c kmalloc requestStopMonitoring n pid s).1 = 0 ∧
      UnloggedFrom K (mySyscall K c kmalloc requestStopMonitoring n pid s).2 n pid

/-- START answers `-EBUSY` just for the pids in the list. -/
theorem start_eq_busy_iff (hn : 0 < n) (hK : n ≤ K.nrSyscalls) (hpid : MayName c pid)
    (kmalloc : Bool) :
    (mySyscall K c kmalloc requestStartMonitoring n pid s).1 = -ebusy ↔
      pid ∈ (s.table n).myList := by
  rw [mySyscall_startMonitoring hn hK hpid, startMonitoring_result hpid.1.ne']
  cases kmalloc <;> by_cases hmem : pid ∈ (s.table n).myList <;>
    simp [hmem, ebusy, enomem]

/-- STOP answers `-EINVAL` just for the pids that are not in the list. -/
theorem stop_eq_inval_iff (hn : 0 < n) (hK : n ≤ K.nrSyscalls) (hpid : MayName c pid)
    (hi : (s.table n).intercepted ≠ 0) (kmalloc : Bool) :
    (mySyscall K c kmalloc requestStopMonitoring n pid s).1 = -einval ↔
      pid ∉ (s.table n).myList := by
  rw [mySyscall_stopMonitoring hn hK hpid, stopMonitoring_result hpid.1.ne' hi]
  by_cases hmem : pid ∈ (s.table n).myList <;> simp [hmem, einval]

/-- A START that answers 0 has put the pid in the list. -/
theorem start_mem (hn : 0 < n) (hK : n ≤ K.nrSyscalls) (hpid : MayName c pid)
    (hmem : pid ∉ (s.table n).myList) :
    (mySyscall K c true requestStartMonitoring n pid s).1 = 0 ∧
      pid ∈ ((mySyscall K c true requestStartMonitoring n pid s).2.table n).myList := by
  rw [mySyscall_startMonitoring hn hK hpid, startMonitoring_result hpid.1.ne']
  refine ⟨by simp [hmem], ?_⟩
  unfold startMonitoring
  rw [if_pos hpid.1.ne']
  by_cases hm : (s.table n).monitored = 0 <;> simp [hmem, hm, addPidSysc]

/-- A STOP that answers 0 leaves a state in which the pid is not logged. -/
theorem stop_not_logs (h : Inv K handlers s) (hn : 0 < n) (hK : n ≤ K.nrSyscalls)
    (hpid : MayName c pid) (hi : (s.table n).intercepted ≠ 0) (hmem : pid ∈ (s.table n).myList)
    (kmalloc : Bool) :
    (mySyscall K c kmalloc requestStopMonitoring n pid s).1 = 0 ∧
      ¬ Logs (mySyscall K c kmalloc requestStopMonitoring n pid s).2 n pid := by
  rw [mySyscall_stopMonitoring hn hK hpid]
  refine ⟨by rw [stopMonitoring_result hpid.1.ne' hi, if_pos hmem], ?_⟩
  have hdoes : Does c requestStopMonitoring pid n s _ _ := stopMonitoring_does rfl (.inl hpid) n s
  obtain ⟨-, e', h', ht, -, heff⟩ := hdoes
  rw [stopMonitoring_result hpid.1.ne' hi, if_pos hmem] at heff
  rw [logs_iff, ht, Function.update_self, not_or]
  cases heff with
  | refused hneg => exact absurd hneg (lt_irrefl 0)
  | intercepted hcmd _ _ | released hcmd _ _ | started hcmd _ _ | startedAll hcmd _ _ _ _ =>
    exact absurd hcmd (by decide)
  | stoppedAll _ _ hp _ _ => exact absurd hp hpid.1.ne'
  | stopped _ _ _ _ =>
    rw [Mytable.unlink_myList, Mytable.unlink_monitored_eq_two]
    refine ⟨fun hin => ?_, ?_⟩
    · exact (h.lists n).nodup.not_mem_erase hin
    · dsimp only
      split <;> decide

/-- **Return codes and the log.** In every state of the loaded module, for an intercepted syscall
and a pid that the caller may name, the codes of START and STOP agree with the log exactly if the
syscall is not monitored for all pids or the pid is in its list as well. -/
theorem agreesWithLog_iff (hr : Reachable K handlers s) (hn : 0 < n) (hK : n < K.nrSyscalls)
    (hi : (s.table n).intercepted = 1) (hpid : MayName c pid) :
    AgreesWithLog K s c n pid ↔
      ((s.table n).monitored = 2 → pid ∈ (s.table n).myList) := by
  have hinv := hr.inv
  have hi0 : (s.table n).intercepted ≠ 0 := by rw [hi]; decide
  constructor
  · intro hag hall
    exact (start_eq_busy_iff hn hK.le hpid true).1
      ((hag.start_busy true).2 (logs_iff.2 (.inr hall)))
  · intro hall
    -- the log looks only at the list
    have hlog : Logs s n pid ↔ pid ∈ (s.table n).myList :=
      logs_iff.trans ⟨fun h => h.elim id hall, .inl⟩
    refine ⟨fun kmalloc => ?_, fun hnot => ?_, fun kmalloc => ?_, fun kmalloc hin => ?_⟩
    · rw [hlog, start_eq_busy_iff hn hK.le hpid]
    · rw [hlog] at hnot
      obtain ⟨hret, hmem⟩ := start_mem (K := K) hn hK.le hpid hnot
      exact ⟨hret, loggedFrom_of_mem (inv_mySyscall c true _ n pid hinv) hmem⟩
    · rw [hlog, stop_eq_inval_iff hn hK.le hpid hi0]
    · rw [hlog] at hin
      obtain ⟨hret, hnot⟩ := stop_not_logs hinv hn hK.le hpid hi0 hin kmalloc
      exact ⟨hret, unloggedFrom_of_not_logs (inv_mySyscall c kmalloc _ n pid hinv) hnot⟩

theorem agreesWithLog_intercepted : AgreesWithLog i386 (exRun [exIntercept]) exRoot 5 8 :=
  (agreesWithLog_iff (exRun_reachable _) (by decide) (by decide) (by decide) (by decide)).2
    (by decide)

/-- With syscall 5 monitored for all pids, pid 8 is logged, but START 5 8 answers 0 and STOP 5 8
answers `-EINVAL`. -/
theorem monitorAll_disagrees :
    Reachable i386 id (exRun [exIntercept, exStartAll]) ∧
    ((exRun [exIntercept, exStartAll]).table 5).intercepted = 1 ∧ MayName exRoot 8 ∧
    Logs (exRun [exIntercept, exStartAll]) 5 8 ∧
    (mySyscall i386 exRoot true requestStartMonitoring 5 8
      (exRun [exIntercept, exStartAll])).1 = 0 ∧
    (mySyscall i386 exRoot true requestStopMonitoring 5 8
      (exRun [exIntercept, exStartAll])).1 = -einval ∧
    ¬ AgreesWithLog i386 (exRun [exIntercept, exStartAll]) exRoot 5 8 := by
  have hlog : Logs (exRun [exIntercept, exStartAll]) 5 8 := by decide
  have hret : (mySyscall i386 exRoot true requestStartMonitoring 5 8
      (exRun [exIntercept, exStartAll])).1 = 0 := by decide
  refine ⟨exRun_reachable _, by decide, by decide, hlog, hret, by decide, fun hag => ?_⟩
  have hbusy := (hag.start_busy true).2 hlog
  exact absurd (hret.symm.trans hbusy) (by decide)

/-! ## Requests of other users -/

/-- The request leaves `sys_call_table`, the saved handlers and the intercepted flags alone, and
what is logged of every pair but the one that it names. -/
structure Undisturbed (K : Kernel) (s : State κ) (c : Caller) (kmalloc : Bool)
    (cmd syscall pid : Int) : Prop where
  slots : (mySyscall K c kmalloc cmd syscall pid s).2.sysCallTable = s.sysCallTable
  entries : ∀ t, ((mySyscall K c kmalloc cmd syscall pid s).2.table t).f = (s.table t).f ∧
    ((mySyscall K c kmalloc cmd syscall pid s).2.table t).intercepted = (s.table t).intercepted
  logs : ∀ (q : Int) (t : ℕ), (q, (t : Int)) ≠ (pid, syscall) →
    (Logs (mySyscall K c kmalloc cmd syscall pid s).2 t q ↔ Logs s t q)

/-- The request is a STOP for a pid in the list of an intercepted syscall that is monitored for
all pids, and the caller may name the pid. -/
def EndsMonitorAll (K : Kernel) (s : State κ) (c : Caller) (cmd syscall pid : Int) : Prop :=
  cmd = requestStopMonitoring ∧ Accepted K syscall ∧ MayName c pid ∧
    (s.table syscall.toNat).intercepted = 1 ∧ (s.table syscall.toNat).monitored = 2 ∧
    pid ∈ (s.table syscall.toNat).myList

instance (s : State κ) (cmd syscall : Int) : Decidable (EndsMonitorAll K s c cmd syscall pid) := by
  unfold EndsMonitorAll; infer_instance

/-- What an effect without root's permission does to an entry: the handler and the flag stay, and
so does what is logged of every other pid, unless it ends the monitoring of all pids. -/
theorem Effect.of_user {cmd r : Int} {e e' : Mytable κ} {h h' : Option (Handler κ)}
    (heff : Effect c cmd pid e h r e' h') (huser : c.uid ≠ 0)
    (hkeep : ¬ (cmd = requestStopMonitoring ∧ MayName c pid ∧ e.intercepted ≠ 0 ∧
      e.monitored = 2 ∧ pid ∈ e.myList)) :
    h' = h ∧ e'.f = e.f ∧ e'.intercepted = e.intercepted ∧
      ∀ q ≠ pid, (q ∈ e'.myList ∨ e'.monitored = 2 ↔ q ∈ e.myList ∨ e.monitored = 2) := by
  cases heff with
  | refused _ => exact ⟨rfl, rfl, rfl, fun q _ => Iff.rfl⟩
  | intercepted _ hroot _ | released _ hroot _ | startedAll _ hroot _ _ _
  | stoppedAll _ hroot _ _ _ => exact absurd hroot huser
  | started _ _ _ =>
    refine ⟨rfl, rfl, rfl, fun q hq => ?_⟩
    by_cases hm : e.monitored = 0 <;> simp [hm, hq]
  | outOfMemory _ _ _ =>
    refine ⟨rfl, rfl, rfl, fun q _ => ?_⟩
    by_cases hm : e.monitored = 0 <;> simp [hm]
  | stopped hcmd hname hi hmem =>
    have hm : e.monitored ≠ 2 := fun hm => hkeep ⟨hcmd, hname, hi, hm, hmem⟩
    refine ⟨rfl, Mytable.unlink_f pid _, Mytable.unlink_intercepted pid _, fun q hq => ?_⟩
    rw [Mytable.unlink_myList, Mytable.unlink_monitored_eq_two, List.mem_erase_of_ne hq]
    simp [hm]

/-- **Other users disturb nobody else's monitoring, with one exception.** In every state of the
loaded module, a request of a caller other than root leaves the tables and everybody else's
logging alone exactly if it does not end the monitoring of all pids. -/
theorem undisturbed_iff (hr : Reachable K handlers s) (huser : c.uid ≠ 0) (kmalloc : Bool)
    (cmd syscall pid : Int) :
    Undisturbed K s c kmalloc cmd syscall pid ↔ ¬ EndsMonitorAll K s c cmd syscall pid := by
  have hinv := hr.inv
  constructor
  · rintro hun ⟨rfl, ⟨hpos, hle⟩, hname, hi, hm, hmem⟩
    obtain ⟨n, rfl⟩ : ∃ n : ℕ, syscall = n := ⟨syscall.toNat, by omega⟩
    rw [Int.toNat_natCast] at hi hm hmem
    obtain ⟨-, hnot⟩ := stop_not_logs hinv (by omega) (by omega) hname (by rw [hi]; decide) hmem
      kmalloc
    rw [logs_iff, not_or] at hnot
    -- pid 0 is in no list, so only the flag can have it logged
    have hzero : (0 : Int) ∉ ((mySyscall K c kmalloc requestStopMonitoring n pid s).2.table
        n).myList := fun hin =>
      lt_irrefl 0 (((inv_mySyscall c kmalloc _ n pid hinv).lists n).pos 0 hin)
    have hlog := (hun.logs 0 n fun heq => hname.1.ne (Prod.mk.inj heq).1).2 (logs_iff.2 (.inr hm))
    exact (logs_iff.1 hlog).elim hzero hnot.2
  · intro hnot
    rcases mySyscall_cases K c kmalloc cmd syscall pid s with
      ⟨-, heq⟩ | ⟨n, rfl, hpos, hle, -, e', h', ht, hs, heff⟩
    · exact ⟨by rw [heq], fun t => by rw [heq]; exact ⟨rfl, rfl⟩, fun q t _ => by rw [heq]⟩
    · have hkeep : ¬ (cmd = requestStopMonitoring ∧ MayName c pid ∧ (s.table n).intercepted ≠ 0 ∧
          (s.table n).monitored = 2 ∧ pid ∈ (s.table n).myList) := by
        rintro ⟨hcmd, hname, hi, hm, hmem⟩
        refine hnot ⟨hcmd, ⟨by omega, by omega⟩, hname, ?_, hm, hmem⟩
        rcases hinv.hooks n with ⟨h0, _⟩ | ⟨h1, _⟩
        · exact absurd h0 hi
        · exact h1
      obtain ⟨rfl, hf, hi, hlog⟩ := heff.of_user huser hkeep
      refine ⟨by rw [hs, Function.update_eq_self], fun t => ?_, fun q t hne => ?_⟩
      · rw [ht]
        by_cases htn : t = n
        · subst htn
          rw [Function.update_self]
          exact ⟨hf, hi⟩
        · rw [Function.update_of_ne htn]
          exact ⟨rfl, rfl⟩
      · rw [logs_iff, logs_iff, ht]
        by_cases htn : t = n
        · subst htn
          rw [Function.update_self]
          exact hlog q fun hq => hne (by rw [hq])
        · rw [Function.update_of_ne htn]

/-- User 1000 starts monitoring syscall 5 for its pid 8. -/
def exStart : Event := .request exUser true requestStartMonitoring 5 8

theorem undisturbed_start :
    Undisturbed i386 (exRun [exIntercept]) exUser true requestStartMonitoring 5 8 :=
  (undisturbed_iff (exRun_reachable _) (by decide) true requestStartMonitoring 5 8).2 (by decide)

/-- Root monitors syscall 5 for all pids, and user 1000 starts and stops it for its own pid 8:
from then on calls of pid 1 are not logged any more. -/
theorem user_ends_monitorAll :
    Reachable i386 id (exRun [exIntercept, exStartAll, exStart]) ∧ exUser.uid ≠ 0 ∧
    Logs (exRun [exIntercept, exStartAll, exStart]) 5 1 ∧
    ¬ Logs (mySyscall i386 exUser true requestStopMonitoring 5 8
      (exRun [exIntercept, exStartAll, exStart])).2 5 1 ∧
    ¬ Undisturbed i386 (exRun [exIntercept, exStartAll, exStart]) exUser true
      requestStopMonitoring 5 8 := by
  have hbefore : Logs (exRun [exIntercept, exStartAll, exStart]) 5 1 := by decide
  have hafter : ¬ Logs (mySyscall i386 exUser true requestStopMonitoring 5 8
      (exRun [exIntercept, exStartAll, exStart])).2 5 1 := by decide
  exact ⟨exRun_reachable _, by decide, hbefore, hafter,
    fun hun => hafter ((hun.logs 1 5 (by decide)).2 hbefore)⟩

end Cscc69.Interceptor
