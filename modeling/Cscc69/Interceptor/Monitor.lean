import Cscc69.Interceptor.Dispatch
import Cscc69.Lib.Simulation
import Mathlib.Data.Finset.Basic

/-!
# What the module is for

Seen from outside, the module answers requests and writes log lines, and every system call still
ends at the handler it should. None of the saved handlers, replaced slots, linked lists, counters
and locks are needed to say what it answers. `Monitor` is this plain machine: for each number,
whether it is hooked, a mode, and a set of pids.

`module_refines`: for every kernel and any sequence of system calls through the table, the loaded
module shows just what the plain machine shows: the same log lines with the same arguments, the
same return values of `my_syscall`, and the same handlers of the kernel, in the same order. In
particular no call is lost, and no call runs into a null handler or back into `interceptor`.

The mode is more than the set: the flag can be 0 with pids in the list, and 1 with none, and START
and STOP for all pids look at the flag alone. So the plain machine keeps it.
-/

namespace Cscc69.Interceptor

open Machines

variable {κ : Type*} {K : Kernel} {handlers : ℕ → κ} {s : State κ} {n : ℕ} {pid : Int}

/-! ## What a call shows -/

/-- A system call with all the registers that `log_message` prints. -/
structure LoggedCall extends Syscall where
  si : Int
  di : Int
  bp : Int

/-- The arguments of one `log_message`. -/
structure LogLine where
  pid : Int
  syscall : ℕ
  args : List Int

def LoggedCall.line (d : LoggedCall) : LogLine :=
  ⟨d.caller.pid, d.ax, [d.bx, d.cx, d.dx, d.si, d.di, d.bp]⟩

/-- What can be seen of a system call: what it logs, what `my_syscall` returns if it comes to
that, and the handlers of the kernel that run. -/
structure Outcome (κ : Type*) where
  log : List LogLine
  result : Option Int
  kernel : List κ

def Outcome.logged (line : LogLine) (logs : Bool) (o : Outcome κ) : Outcome κ :=
  if logs then { o with log := line :: o.log } else o

/-- Run a handler for the call `d`, to a depth of at most `fuel` handlers that call each other.
Calling a null handler gives `none`. -/
def serve (K : Kernel) (d : LoggedCall) :
    ℕ → Option (Handler κ) → State κ → Option (Outcome κ × State κ)
  | 0, _, _ => none
  | _ + 1, none, _ => none
  | _ + 1, some (.kernel h), s => some (⟨[], none, [h]⟩, s)
  | _ + 1, some .mySyscall, s =>
    let r := mySyscall K d.caller d.kmalloc d.bx d.cx d.dx s
    some (⟨[], some r.1, []⟩, r.2)
  | fuel + 1, some .myExitGroup, s =>
    let s := myExitGroup K d.caller.pid s
    serve K d fuel s.origExitGroup s
  | fuel + 1, some .interceptor, s =>
    let r := interceptor d.caller.pid d.ax s
    (serve K d fuel r.2.1 r.2.2).map fun x => (x.1.logged d.line r.1, x.2)

/-- The module as a machine: the kernel takes the handler from the slot of the number in `ax`. Three
handlers are as deep as it gets. -/
def kernelModule (K : Kernel) : Machine (State κ) LoggedCall (Outcome κ) := fun s d =>
  serve K d 3 (s.sysCallTable d.ax) s

/-! ## The plain machine -/

inductive Mode
  | off
  | listed
  | all
  deriving DecidableEq

/-- The `monitored` flag. -/
def Mode.flag : Mode → Int
  | .off => 0
  | .listed => 1
  | .all => 2

structure Watch where
  hooked : Bool
  mode : Mode
  pids : Finset Int

namespace Watch

def idle : Watch := ⟨false, .off, ∅⟩

def logs (w : Watch) (pid : Int) : Bool := w.hooked ∧ (pid ∈ w.pids ∨ w.mode = .all)

def intercept (w : Watch) : Int × Watch :=
  if w.hooked then (-ebusy, w) else (0, { w with hooked := true })

def release (w : Watch) : Int × Watch :=
  if w.hooked then (0, { w with hooked := false }) else (-einval, w)

def start (kmalloc : Bool) (pid : Int) (w : Watch) : Int × Watch :=
  if pid = 0 then
    if w.mode = .off then (0, { w with mode := .all }) else (-ebusy, w)
  else if pid ∈ w.pids then (-ebusy, w)
  else
    let w := if w.mode = .off then { w with mode := .listed } else w
    if kmalloc then (0, { w with pids := insert pid w.pids }) else (-enomem, w)

/-- Forget a pid. If it was the last one, the monitoring of single pids ends. -/
def drop (pid : Int) (w : Watch) : Watch :=
  { w with
    pids := w.pids.erase pid,
    mode := if pid ∈ w.pids ∧ w.pids.erase pid = ∅ ∧ w.mode = .listed then .off else w.mode }

def stop (pid : Int) (w : Watch) : Int × Watch :=
  if !w.hooked then (-einval, w)
  else if pid = 0 then
    if w.mode = .all then (0, { w with mode := .off, pids := ∅ }) else (-einval, w)
  else if pid ∈ w.pids then
    (0, ({ w with mode := if w.mode = .all then .listed else .off } : Watch).drop pid)
  else (-einval, w)

def command (kmalloc : Bool) (cmd pid : Int) (w : Watch) : Int × Watch :=
  if cmd = requestSyscallIntercept then w.intercept
  else if cmd = requestSyscallRelease then w.release
  else if cmd = requestStartMonitoring then w.start kmalloc pid
  else w.stop pid

end Watch

/-- The plain machine: what it knows of each number. -/
abbrev Monitor := ℕ → Watch

namespace Monitor

def request (K : Kernel) (c : Caller) (kmalloc : Bool) (cmd syscall pid : Int) (m : Monitor) :
    Int × Monitor :=
  match requestError K c cmd syscall pid with
  | some err => (err, m)
  | none =>
    let n := syscall.toNat
    let r := (m n).command kmalloc cmd pid
    (r.1, Function.update m n r.2)

def exit (K : Kernel) (pid : Int) (m : Monitor) : Monitor := fun n =>
  if 1 ≤ n ∧ n < K.nrSyscalls then (m n).drop pid else m n

/-- What a call does when it is not logged. -/
def handle (K : Kernel) (handlers : ℕ → κ) (m : Monitor) (d : LoggedCall) : Outcome κ × Monitor :=
  if d.ax = K.nrExitGroup then (⟨[], none, [handlers d.ax]⟩, m.exit K d.caller.pid)
  else if d.ax = myCustomSyscall then
    let r := m.request K d.caller d.kmalloc d.bx d.cx d.dx
    (⟨[], some r.1, []⟩, r.2)
  else (⟨[], none, [handlers d.ax]⟩, m)

def call (K : Kernel) (handlers : ℕ → κ) (m : Monitor) (d : LoggedCall) : Outcome κ × Monitor :=
  let r := m.handle K handlers d
  (r.1.logged d.line ((m d.ax).logs d.caller.pid), r.2)

/-- Nothing is hooked or monitored. -/
def idle : Monitor := fun _ => .idle

end Monitor

/-! ## Entries -/

/-- The entry says the same as `w`. -/
structure Shows (e : Mytable κ) (w : Watch) : Prop where
  hooked : e.intercepted = if w.hooked then 1 else 0
  mode : e.monitored = w.mode.flag
  pids : ∀ p, p ∈ e.myList ↔ p ∈ w.pids

theorem Mode.flag_inj {a b : Mode} : a.flag = b.flag ↔ a = b := by
  cases a <;> cases b <;> decide

variable {e : Mytable κ} {w : Watch}

/-- A pid that is not listed is not forgotten. -/
theorem Watch.drop_of_notMem (h : pid ∉ w.pids) : w.drop pid = w := by
  rw [Watch.drop, if_neg fun hd => h hd.1, Finset.erase_eq_of_notMem h]

namespace Shows

theorem intercepted_iff (h : Shows e w) : e.intercepted = 1 ↔ w.hooked = true := by
  rw [h.hooked]
  cases w.hooked <;> decide

theorem released_iff (h : Shows e w) : e.intercepted = 0 ↔ w.hooked = false := by
  rw [h.hooked]
  cases w.hooked <;> decide

theorem monitored_iff (h : Shows e w) (a : Mode) : e.monitored = a.flag ↔ w.mode = a := by
  rw [h.mode, Mode.flag_inj]

/-- Unlinking a pid forgets it. -/
theorem unlink (h : Shows e w) (hok : ListOk e) (hmem : pid ∈ e.myList) :
    Shows (e.unlink pid) (w.drop pid) where
  hooked := (Mytable.unlink_intercepted pid e).trans h.hooked
  mode := by
    have hlast : e.listcount - 1 = 0 ↔ w.pids.erase pid = ∅ := by
      rw [← Mytable.unlink_listcount pid, (hok.unlink hmem).count, Mytable.unlink_myList,
        Int.natCast_eq_zero, List.length_eq_zero_iff, List.eq_nil_iff_forall_not_mem,
        Finset.eq_empty_iff_forall_notMem]
      refine forall_congr' fun p => not_congr ?_
      rw [hok.nodup.mem_erase_iff, Finset.mem_erase, h.pids]
    have hends : e.listcount - 1 = 0 ∧ e.monitored = 1 ↔
        pid ∈ w.pids ∧ w.pids.erase pid = ∅ ∧ w.mode = .listed := by
      rw [hlast, ← h.monitored_iff .listed, and_iff_right ((h.pids pid).1 hmem)]
      exact Iff.rfl
    rw [Mytable.unlink_monitored, Watch.drop]
    by_cases hd : pid ∈ w.pids ∧ w.pids.erase pid = ∅ ∧ w.mode = .listed
    · rw [if_pos (hends.2 hd), if_pos hd]
      rfl
    · rw [if_neg (fun he => hd (hends.1 he)), if_neg hd]
      exact h.mode
  pids p := by
    rw [Mytable.unlink_myList, hok.nodup.mem_erase_iff, Watch.drop, Finset.mem_erase, h.pids]

theorem delPid (h : Shows e w) (hok : ListOk e) (pid : Int) :
    Shows (e.delPid pid) (w.drop pid) := by
  rw [Mytable.delPid_of_nodup pid hok.nodup]
  split
  · rename_i hmem
    exact h.unlink hok hmem
  · rename_i hmem
    have hnot : pid ∉ w.pids := fun hp => hmem ((h.pids pid).2 hp)
    rw [Watch.drop_of_notMem hnot]
    exact h

end Shows

/-! ## Commands -/

/-- A command on number `n` returns what the plain machine does, and leaves what it leaves. -/
def Answers (n : ℕ) (r : Int × State κ) (r' : Int × Watch) : Prop :=
  r.1 = r'.1 ∧ Shows (r.2.table n) r'.2

theorem intercept_answers (h : Shows (s.table n) w) : Answers n (intercept n s) w.intercept := by
  unfold intercept Watch.intercept
  by_cases hi : w.hooked = true
  · rw [if_pos (h.intercepted_iff.2 hi), if_pos hi]
    exact ⟨rfl, h⟩
  · rw [if_neg (fun he => hi (h.intercepted_iff.1 he)), if_neg hi]
    refine ⟨rfl, ?_⟩
    show Shows (Function.update s.table n _ n) _
    rw [Function.update_self]
    exact ⟨rfl, h.mode, h.pids⟩

theorem release_answers (h : Shows (s.table n) w) : Answers n (release n s) w.release := by
  unfold release Watch.release
  by_cases hi : w.hooked = true
  · rw [if_neg (fun he => absurd (h.released_iff.1 he) (by simp [hi])), if_pos hi]
    refine ⟨rfl, ?_⟩
    show Shows (Function.update s.table n _ n) _
    rw [Function.update_self]
    exact ⟨rfl, h.mode, h.pids⟩
  · rw [if_pos (h.released_iff.2 (by simpa using hi)), if_neg hi]
    exact ⟨rfl, h⟩

/-- The flag of a number that gets its first pid. -/
theorem Shows.raise (h : Shows (s.table n) w) :
    Shows ((if (s.table n).monitored = 0 then
        s.setEntry n { s.table n with monitored := 1 } else s).table n)
      (if w.mode = .off then { w with mode := .listed } else w) := by
  by_cases hoff : w.mode = .off
  · have hm : (s.table n).monitored = 0 := (h.monitored_iff .off).2 hoff
    rw [if_pos hm, if_pos hoff, State.setEntry_table, Function.update_self]
    exact ⟨h.hooked, rfl, h.pids⟩
  · have hm : (s.table n).monitored ≠ 0 := fun hm => hoff ((h.monitored_iff .off).1 hm)
    rw [if_neg hm, if_neg hoff]
    exact h

/-- The flag of a number that loses a pid, before it is taken out. -/
theorem Shows.lower (h : Shows (s.table n) w) :
    Shows ((if (s.table n).monitored = 2 then s.setEntry n { s.table n with monitored := 1 }
        else s.setEntry n { s.table n with monitored := 0 }).table n)
      { w with mode := if w.mode = .all then .listed else .off } := by
  by_cases hall : w.mode = .all
  · have hm : (s.table n).monitored = 2 := (h.monitored_iff .all).2 hall
    rw [if_pos hm, if_pos hall, State.setEntry_table, Function.update_self]
    exact ⟨h.hooked, rfl, h.pids⟩
  · have hm : (s.table n).monitored ≠ 2 := fun hm => hall ((h.monitored_iff .all).1 hm)
    rw [if_neg hm, if_neg hall, State.setEntry_table, Function.update_self]
    exact ⟨h.hooked, rfl, h.pids⟩

theorem addPidSysc_answers (h : Shows (s.table n) w) (kmalloc : Bool) (pid : Int) :
    Answers n (addPidSysc kmalloc pid n s)
      (if kmalloc then (0, { w with pids := insert pid w.pids }) else (-enomem, w)) := by
  unfold addPidSysc
  cases kmalloc with
  | false => exact ⟨rfl, h⟩
  | true =>
    refine ⟨rfl, ?_⟩
    show Shows (Function.update s.table n _ n) _
    rw [Function.update_self]
    refine ⟨h.hooked, h.mode, fun p => ?_⟩
    show p ∈ pid :: (s.table n).myList ↔ p ∈ insert pid w.pids
    rw [List.mem_cons, Finset.mem_insert, h.pids]

theorem delPidSysc_answers (h : Shows (s.table n) w) (hok : ListOk (s.table n))
    (hmem : pid ∈ (s.table n).myList) : Answers n (delPidSysc pid n s) (0, w.drop pid) := by
  unfold delPidSysc
  rw [if_pos hmem]
  refine ⟨rfl, ?_⟩
  show Shows (Function.update s.table n _ n) _
  rw [Function.update_self]
  exact h.unlink hok hmem

theorem startMonitoring_answers (h : Shows (s.table n) w) (kmalloc : Bool) (pid : Int) :
    Answers n (startMonitoring kmalloc n pid s) (w.start kmalloc pid) := by
  unfold startMonitoring Watch.start
  by_cases hp : pid = 0
  · rw [if_neg (not_not.2 hp), if_pos hp]
    have hbusy : (s.table n).monitored = 2 ∨ (s.table n).monitored = 1 ↔ w.mode ≠ .off := by
      rw [h.mode]
      cases w.mode <;> decide
    dsimp only
    split
    · rename_i hb
      rw [if_neg (hbusy.1 hb)]
      exact ⟨rfl, h⟩
    · rename_i hb
      rw [if_pos (not_not.1 fun hoff => hb (hbusy.2 hoff))]
      refine ⟨rfl, ?_⟩
      show Shows (Function.update s.table n _ n) _
      rw [Function.update_self]
      exact ⟨h.hooked, rfl, h.pids⟩
  · rw [if_pos hp, if_neg hp]
    dsimp only
    split
    · rename_i hmem
      rw [if_pos ((h.pids pid).1 (checkPidMonitored_eq_one.1 hmem))]
      exact ⟨rfl, h⟩
    · rename_i hmem
      rw [if_neg fun hin => hmem (checkPidMonitored_eq_one.2 ((h.pids pid).2 hin))]
      have hraise : Shows _ _ := Shows.raise (s := s.lockPidlist.lockCalltable.unlockPidlist) h
      exact addPidSysc_answers (s := State.lockPidlist _) hraise kmalloc pid

/-- Only the flag of an entry differs. -/
theorem listOk_lower (hok : ListOk (s.table n)) :
    ListOk ((if (s.table n).monitored = 2 then s.setEntry n { s.table n with monitored := 1 }
        else s.setEntry n { s.table n with monitored := 0 }).table n) ∧
      ((if (s.table n).monitored = 2 then s.setEntry n { s.table n with monitored := 1 }
        else s.setEntry n { s.table n with monitored := 0 }).table n).myList =
          (s.table n).myList := by
  split
  · rw [State.setEntry_table, Function.update_self]
    exact ⟨hok.of_eq rfl rfl, rfl⟩
  · rw [State.setEntry_table, Function.update_self]
    exact ⟨hok.of_eq rfl rfl, rfl⟩

theorem stopMonitoring_answers (h : Shows (s.table n) w) (hok : ListOk (s.table n)) (pid : Int) :
    Answers n (stopMonitoring n pid s) (w.stop pid) := by
  unfold stopMonitoring Watch.stop
  dsimp only
  split
  · rename_i hi
    have hreleased : (!w.hooked) = true := by
      rw [h.released_iff.1 hi]
      rfl
    rw [if_pos hreleased]
    exact ⟨rfl, h⟩
  · rename_i hi
    have hhooked : ¬ (!w.hooked) = true := by
      intro hw
      exact hi (h.released_iff.2 (by simpa using hw))
    rw [if_neg hhooked]
    by_cases hp : pid = 0
    · rw [if_neg (not_not.2 hp), if_pos hp]
      split
      · rename_i hall
        rw [if_pos ((h.monitored_iff .all).1 hall)]
        refine ⟨rfl, ?_⟩
        show Shows (Function.update s.table n _ n) _
        rw [Function.update_self]
        refine ⟨h.hooked, rfl, fun p => ?_⟩
        exact iff_of_false List.not_mem_nil (Finset.notMem_empty p)
      · rename_i hall
        rw [if_neg fun hm => hall ((h.monitored_iff .all).2 hm)]
        exact ⟨rfl, h⟩
    · rw [if_pos hp, if_neg hp]
      split
      · rename_i hmem
        rw [if_neg fun hin => checkPidMonitored_eq_zero.1 hmem ((h.pids pid).2 hin)]
        exact ⟨rfl, h⟩
      · rename_i hmem
        have hin : pid ∈ (s.table n).myList := by
          by_contra hnot
          exact hmem (checkPidMonitored_eq_zero.2 hnot)
        rw [if_pos ((h.pids pid).1 hin)]
        have hlower : Shows _ _ := Shows.lower
          (s := s.lockCalltable.unlockCalltable.lockPidlist.lockCalltable.unlockPidlist) h
        have hlist := listOk_lower
          (s := s.lockCalltable.unlockCalltable.lockPidlist.lockCalltable.unlockPidlist) hok
        exact delPidSysc_answers (s := State.lockPidlist _) hlower hlist.1 (by
          rw [State.lockPidlist_table, hlist.2]
          exact hin)

/-! ## The simulation -/

/-- The plain machine in the same state. -/
structure Mirrors (K : Kernel) (handlers : ℕ → κ) (s : State κ) (m : Monitor) : Prop where
  inv : Inv K handlers s
  shows : ∀ n, Shows (s.table n) (m n)

/-- A request touches only the entry that it names. -/
theorem mySyscall_table_of_ne (K : Kernel) (c : Caller) (kmalloc : Bool) (cmd syscall pid : Int)
    (s : State κ) {k : ℕ} (hk : k ≠ syscall.toNat) :
    (mySyscall K c kmalloc cmd syscall pid s).2.table k = s.table k := by
  obtain ⟨-, heq⟩ | ⟨n, rfl, -, -, -, e', h', ht, -, -⟩ :=
    mySyscall_cases K c kmalloc cmd syscall pid s
  · rw [heq]
  · rw [ht, Function.update_of_ne]
    simpa using hk

variable {m : Monitor}

theorem Mirrors.request (h : Mirrors K handlers s m) (c : Caller) (kmalloc : Bool)
    (cmd syscall pid : Int) :
    (mySyscall K c kmalloc cmd syscall pid s).1 = (m.request K c kmalloc cmd syscall pid).1 ∧
    Mirrors K handlers (mySyscall K c kmalloc cmd syscall pid s).2
      (m.request K c kmalloc cmd syscall pid).2 := by
  cases herr : requestError K c cmd syscall pid with
  | some err =>
    have hrefused : mySyscall K c kmalloc cmd syscall pid s = (err, s) := by
      simp only [mySyscall, herr]
    have hrefused' : m.request K c kmalloc cmd syscall pid = (err, m) := by
      simp only [Monitor.request, herr]
    rw [hrefused, hrefused']
    exact ⟨rfl, h⟩
  | none =>
    set n := syscall.toNat with hn
    have hanswers : Answers n (mySyscall K c kmalloc cmd syscall pid s)
        ((m n).command kmalloc cmd pid) := by
      simp only [mySyscall, herr, ← hn, Watch.command]
      split
      · exact intercept_answers (h.shows n)
      split
      · exact release_answers (h.shows n)
      split
      · exact startMonitoring_answers (h.shows n) kmalloc pid
      · exact stopMonitoring_answers (h.shows n) (h.inv.lists n) pid
    have hcommand : m.request K c kmalloc cmd syscall pid =
        (((m n).command kmalloc cmd pid).1,
          Function.update m n ((m n).command kmalloc cmd pid).2) := by
      simp only [Monitor.request, herr, ← hn]
    rw [hcommand]
    refine ⟨hanswers.1, inv_mySyscall c kmalloc cmd syscall pid h.inv, fun k => ?_⟩
    dsimp only
    by_cases hk : k = n
    · subst hk
      rw [Function.update_self]
      exact hanswers.2
    · rw [Function.update_of_ne hk, mySyscall_table_of_ne K c kmalloc cmd syscall pid s hk]
      exact h.shows k

theorem Mirrors.exit (h : Mirrors K handlers s m) (pid : Int) :
    Mirrors K handlers (myExitGroup K pid s) (m.exit K pid) := by
  refine ⟨inv_myExitGroup pid h.inv, fun n => ?_⟩
  rw [myExitGroup_table, Monitor.exit]
  split
  · exact (h.shows n).delPid (h.inv.lists n) pid
  · exact h.shows n

/-- The handler of the loaded module does what the plain machine does when nothing is logged. -/
theorem serve_loadedSlot (h : Mirrors K handlers s m) (d : LoggedCall) (fuel : ℕ) :
    ∃ s', serve K d (fuel + 2) (loadedSlot K handlers d.ax) s =
        some ((m.handle K handlers d).1, s') ∧
      Mirrors K handlers s' (m.handle K handlers d).2 := by
  rw [loadedSlot_eq, Monitor.handle]
  split
  · rename_i hexit
    have horig : (myExitGroup K d.caller.pid s).origExitGroup =
        some (.kernel (handlers K.nrExitGroup)) :=
      congrArg Prod.snd (inv_myExitGroup d.caller.pid h.inv).origs
    refine ⟨myExitGroup K d.caller.pid s, ?_, h.exit d.caller.pid⟩
    simp only [serve, horig, hexit]
  split
  · obtain ⟨hret, hmirrors⟩ := h.request d.caller d.kmalloc d.bx d.cx d.dx
    refine ⟨_, ?_, hmirrors⟩
    simp only [serve, hret]
  · exact ⟨s, rfl, h⟩

theorem Shows.logs (h : Shows (s.table n) w) (hi : w.hooked = true) (pid : Int) :
    (interceptor pid n s).1 = w.logs pid := by
  have hlogs : Logs s n pid ↔ pid ∈ w.pids ∨ w.mode = .all := by
    rw [logs_iff, h.pids, ← h.monitored_iff .all]
    exact Iff.rfl
  unfold interceptor Watch.logs
  exact decide_eq_decide.2 (hlogs.trans (and_iff_right hi).symm)

/-- **One call.** Both machines show the same of it, and stay in the same state. -/
theorem kernelModule_simulates (K : Kernel) (handlers : ℕ → κ) :
    Simulates (Mirrors K handlers) (kernelModule K) (total (Monitor.call K handlers)) := by
  intro s m d h
  have hshow := h.shows d.ax
  unfold kernelModule total Monitor.call
  obtain ⟨hi, hslot⟩ | ⟨hi, hslot, hf⟩ := h.inv.hooks d.ax
  · obtain ⟨s', hserve, hmirrors⟩ := serve_loadedSlot h d 1
    have hquiet : (m d.ax).logs d.caller.pid = false := by
      simp [Watch.logs, hshow.released_iff.1 hi]
    rw [hslot, hserve, hquiet]
    exact .some ⟨rfl, hmirrors⟩
  · obtain ⟨s', hserve, hmirrors⟩ := serve_loadedSlot h d 0
    have hbody := h.inv.interceptor_eq d.caller.pid hslot
    have hsaved : (interceptor d.caller.pid d.ax s).2.1 = loadedSlot K handlers d.ax := hf
    rw [hslot, serve, hbody, hsaved, hserve, hshow.logs (hshow.intercepted_iff.1 hi)]
    exact .some ⟨rfl, hmirrors⟩

theorem mirrors_loaded (K : Kernel) (handlers : ℕ → κ) :
    Mirrors K handlers (loaded K handlers) .idle := by
  refine ⟨inv_loaded K handlers, fun n => ?_⟩
  rw [loaded_table]
  exact ⟨rfl, rfl, fun p => iff_of_false List.not_mem_nil (Finset.notMem_empty p)⟩

end Cscc69.Interceptor
