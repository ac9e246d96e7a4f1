import Cscc69.Interceptor.Monitoring

/-!
# The monitored flag and the lists

The flag of a syscall is 0 when its list is meant to be empty and 1 when it is not (`FlagOk`). Two
requests break this: a START that runs out of memory has set the flag to 1 before it adds the pid,
and a STOP sets a flag of 1 to 0 without asking for the other pids of the list. All others keep it,
so that it holds all along a run exactly if none of its requests is one of the two
(`flagsOk_iff`).

When a process exits, `del_pid` goes through the lists of the numbers below `NR_syscalls`. The
process is in no list afterwards exactly if it was not in that of `NR_syscalls` (`forgets_iff`).
-/

namespace Cscc69.Interceptor

variable {κ : Type*} {K : Kernel} {handlers : ℕ → κ} {s s' : State κ} {c : Caller} {n : ℕ}
  {pid r : Int} {cmd : Int} {e e' : Mytable κ} {h h' : Option (Handler κ)}

/-! ## The flag -/

/-- The flag tells whether the list is empty, unless it stands for all pids. -/
structure FlagOk (e : Mytable κ) : Prop where
  zero : e.monitored = 0 → e.myList = []
  one : e.monitored = 1 → e.myList ≠ []

def FlagsOk (K : Kernel) (s : State κ) : Prop :=
  ∀ n, 0 < n → n ≤ K.nrSyscalls → FlagOk (s.table n)

/-- A command for `pid` that leaves the flag of the entry wrong: a START without memory when the
flag is 0, or a STOP that takes the flag from the other pids of the list. -/
def Misleads (kmalloc : Bool) (cmd pid : Int) (e : Mytable κ) : Prop :=
  cmd = requestStartMonitoring ∧ kmalloc = false ∧ e.monitored = 0 ∨
    cmd = requestStopMonitoring ∧ e.intercepted ≠ 0 ∧ e.monitored ≠ 2 ∧ pid ∈ e.myList ∧
      ∃ q ∈ e.myList, q ≠ pid

instance (kmalloc : Bool) (cmd pid : Int) (e : Mytable κ) :
    Decidable (Misleads kmalloc cmd pid e) := by
  unfold Misleads; infer_instance

/-- The event is such a request, and it passes the checks. -/
def Event.Misleads (K : Kernel) (s : State κ) : Event → Prop
  | .request c kmalloc cmd syscall pid => Accepted K syscall ∧ MayName c pid ∧
      Interceptor.Misleads kmalloc cmd pid (s.table syscall.toNat)
  | .exitGroup _ => False
  | .call _ _ => False

instance (K : Kernel) (s : State κ) (e : Event) : Decidable (e.Misleads K s) := by
  cases e <;> unfold Event.Misleads <;> infer_instance

theorem FlagOk.of_eq (hf : FlagOk e) (hm : e'.monitored = e.monitored)
    (hl : e'.myList = e.myList) : FlagOk e' :=
  ⟨by rw [hm, hl]; exact hf.zero, by rw [hm, hl]; exact hf.one⟩

theorem erase_ne_nil_iff {l : List Int} (hnd : l.Nodup) : l.erase pid ≠ [] ↔ ∃ q ∈ l, q ≠ pid := by
  constructor
  · intro hne
    obtain ⟨q, hq⟩ := List.exists_mem_of_ne_nil _ hne
    exact ⟨q, ((hnd.mem_erase_iff).1 hq).2, ((hnd.mem_erase_iff).1 hq).1⟩
  · intro hex
    obtain ⟨q, hq, hne⟩ := hex
    exact List.ne_nil_of_mem ((List.mem_erase_of_ne hne).2 hq)

/-- Taking a pid out with the flag at 1 leaves the flag right. -/
theorem FlagOk.unlink_one (hok : ListOk e) (hmem : pid ∈ e.myList) (hm : e.monitored = 1) :
    FlagOk (e.unlink pid) := by
  have hlen := List.length_erase_of_mem hmem
  have hpos := List.length_pos_of_mem hmem
  have hcount := hok.count
  have hflag := Mytable.unlink_monitored pid e
  constructor
  · intro hzero
    rw [Mytable.unlink_myList, ← List.length_eq_zero_iff, hlen]
    rw [hflag] at hzero
    split at hzero
    · omega
    · omega
  · intro hone
    rw [Mytable.unlink_myList, ne_eq, ← List.length_eq_zero_iff, hlen]
    rw [hflag] at hone
    split at hone
    · omega
    · omega

theorem Mytable.unlink_monitored_of_ne (pid : Int) (hm : e.monitored ≠ 1) :
    (e.unlink pid).monitored = e.monitored := by
  rw [Mytable.unlink_monitored, if_neg fun h => hm h.2]

/-- An exit keeps the flag right. -/
theorem FlagOk.delPid (pid : Int) (hok : ListOk e) (hf : FlagOk e) : FlagOk (e.delPid pid) := by
  rw [Mytable.delPid_of_nodup pid hok.nodup]
  split
  · rename_i hmem
    by_cases hm : e.monitored = 1
    · exact .unlink_one hok hmem hm
    · have hkeep := Mytable.unlink_monitored_of_ne pid hm
      constructor
      · intro hzero
        rw [hkeep] at hzero
        rw [hf.zero hzero] at hmem
        cases hmem
      · intro hone
        rw [hkeep] at hone
        exact absurd hone hm
  · exact hf

/-- A STOP keeps the flag right unless it takes it from other pids. -/
theorem flagOk_stopped (hok : ListOk e) (hmem : pid ∈ e.myList) :
    FlagOk (({ e with monitored := if e.monitored = 2 then 1 else 0 } : Mytable κ).unlink pid) ↔
      ¬ (e.monitored ≠ 2 ∧ ∃ q ∈ e.myList, q ≠ pid) := by
  have hok' : ListOk { e with monitored := if e.monitored = 2 then 1 else 0 } :=
    hok.of_eq rfl rfl
  by_cases hm : e.monitored = 2
  · rw [if_pos hm] at hok' ⊢
    simp only [hm, ne_eq, not_true_eq_false, false_and, not_false_eq_true, iff_true]
    exact .unlink_one hok' hmem rfl
  · rw [if_neg hm]
    have hne : ({ e with monitored := 0 } : Mytable κ).monitored ≠ 1 := by
      show (0 : Int) ≠ 1
      decide
    have hkeep : (({ e with monitored := 0 } : Mytable κ).unlink pid).monitored = 0 :=
      Mytable.unlink_monitored_of_ne pid hne
    rw [← erase_ne_nil_iff hok.nodup, not_and_not_right]
    constructor
    · intro hf _
      have hnil := hf.zero hkeep
      rwa [Mytable.unlink_myList] at hnil
    · intro hnil
      constructor
      · intro _
        rw [Mytable.unlink_myList]
        exact hnil hm
      · intro hone
        rw [hkeep] at hone
        cases hone

/-! ## Requests -/

/-- What START without memory makes of the entry. -/
theorem startMonitoring_false_entry (hp : pid ≠ 0) (hmem : pid ∉ (s.table n).myList) :
    (startMonitoring false n pid s).2.table n =
      { s.table n with
        monitored := if (s.table n).monitored = 0 then 1 else (s.table n).monitored } := by
  unfold startMonitoring
  rw [if_pos hp]
  by_cases hm : (s.table n).monitored = 0
  · simp [hmem, hm, addPidSysc]
  · simp [hmem, hm, addPidSysc]

/-- What STOP makes of the entry. -/
theorem stopMonitoring_entry (hp : pid ≠ 0) (hi : (s.table n).intercepted ≠ 0)
    (hmem : pid ∈ (s.table n).myList) :
    (stopMonitoring n pid s).2.table n =
      ({ s.table n with
        monitored := if (s.table n).monitored = 2 then 1 else 0 } : Mytable κ).unlink pid := by
  unfold stopMonitoring
  simp only [State.lockCalltable_table, hi, if_false, hp, ne_eq, not_false_eq_true, if_true]
  by_cases hm : (s.table n).monitored = 2
  · simp [hmem, hm, delPidSysc]
  · simp [hmem, hm, delPidSysc]

/-- A misleading request leaves the flag wrong. -/
theorem Misleads.not_flagOk {kmalloc : Bool} {syscall : Int} (hinv : Inv K handlers s)
    (hf : FlagsOk K s) (hacc : Accepted K syscall) (hname : MayName c pid)
    (hmis : Misleads kmalloc cmd pid (s.table syscall.toNat)) :
    ¬ FlagsOk K (mySyscall K c kmalloc cmd syscall pid s).2 := by
  obtain ⟨hpos, hle⟩ := hacc
  obtain ⟨n, rfl⟩ : ∃ n : ℕ, syscall = n := ⟨syscall.toNat, by omega⟩
  rw [Int.toNat_natCast] at hmis
  have hn : 0 < n := by omega
  have hK : n ≤ K.nrSyscalls := by omega
  have hp : pid ≠ 0 := hname.1.ne'
  intro hf'
  have hok := hf' n hn hK
  obtain ⟨rfl, rfl, hm⟩ | ⟨rfl, hi, hm, hmem, hex⟩ := hmis
  · have hnil := (hf n hn hK).zero hm
    have hmem : pid ∉ (s.table n).myList := by
      rw [hnil]
      exact List.not_mem_nil
    rw [mySyscall_startMonitoring hn hK hname, startMonitoring_false_entry hp hmem,
      if_pos hm] at hok
    exact hok.one rfl hnil
  · rw [mySyscall_stopMonitoring hn hK hname, stopMonitoring_entry hp hi hmem] at hok
    exact (flagOk_stopped (hinv.lists n) hmem).1 hok ⟨hm, hex⟩

/-- Every other request keeps the flag right. -/
theorem Effect.flagOk (kmalloc : Bool) (heff : Effect c cmd pid e h r e' h') (hok : ListOk e)
    (hf : FlagOk e) (hnot : MayName c pid → ¬ Misleads kmalloc cmd pid e)
    (hmem : MayName c pid → cmd = requestStartMonitoring → r = -enomem → kmalloc = false) :
    FlagOk e' := by
  cases heff with
  | refused _ => exact hf
  | intercepted _ _ _ | released _ _ _ => exact hf.of_eq rfl rfl
  | started _ _ _ =>
    refine ⟨fun hzero => ?_, fun _ => List.cons_ne_nil _ _⟩
    dsimp only at hzero
    split at hzero
    · cases hzero
    · rename_i hne
      exact absurd hzero hne
  | outOfMemory hcmd hname _ =>
    have hne : e.monitored ≠ 0 := fun hm => hnot hname (.inl ⟨hcmd, hmem hname hcmd rfl, hm⟩)
    rw [if_neg hne]
    exact hf
  | startedAll _ _ _ _ _ =>
    constructor
    · intro hzero
      cases hzero
    · intro hone
      cases hone
  | stopped hcmd hname hi hin =>
    exact (flagOk_stopped hok hin).2 fun hall =>
      hnot hname (.inr ⟨hcmd, hi, hall.1, hin, hall.2⟩)
  | stoppedAll _ _ _ _ _ => exact ⟨fun _ => rfl, fun hone => by cases hone⟩

theorem request_flagsOk {kmalloc : Bool} {syscall : Int} (hinv : Inv K handlers s)
    (hf : FlagsOk K s) (hnot : ¬ (Event.request c kmalloc cmd syscall pid).Misleads K s) :
    FlagsOk K (mySyscall K c kmalloc cmd syscall pid s).2 := by
  obtain ⟨_, heq⟩ | ⟨m, rfl, hpos, hle, -, e', h', ht, -, heff⟩ :=
    mySyscall_cases K c kmalloc cmd syscall pid s
  · rw [heq]
    exact hf
  intro n hn hK
  by_cases hnm : n = m
  · subst hnm
    rw [ht, Function.update_self]
    refine heff.flagOk kmalloc (hinv.lists n) (hf n hn hK) ?_ ?_
    · intro hname hmis
      refine hnot ⟨⟨by omega, by omega⟩, hname, ?_⟩
      rwa [Int.toNat_natCast]
    · intro hname hcmd hr
      subst hcmd
      rw [mySyscall_startMonitoring hpos hle hname, startMonitoring_result hname.1.ne'] at hr
      cases kmalloc with
      | false => rfl
      | true => split at hr <;> cases hr
  · rw [ht, Function.update_of_ne hnm]
    exact hf n hn hK

/-! ## All along a run -/

theorem flagsOk_loaded (K : Kernel) (handlers : ℕ → κ) : FlagsOk K (loaded K handlers) := by
  intro n _ _
  rw [loaded_table]
  refine ⟨fun _ => rfl, fun hone => ?_⟩
  cases hone

theorem exitGroup_flagsOk (hinv : Inv K handlers s) (hf : FlagsOk K s) :
    FlagsOk K (myExitGroup K pid s) := by
  intro n hn hK
  rw [myExitGroup_table]
  split
  · exact (hf n hn hK).delPid pid (hinv.lists n)
  · exact hf n hn hK

/-- A step keeps the flags right unless it is a misleading request. -/
theorem step_flagsOk_iff (hinv : Inv K handlers s) (hf : FlagsOk K s) (e : Event) :
    FlagsOk K (step K s e) ↔ ¬ e.Misleads K s := by
  cases e with
  | request c kmalloc cmd syscall pid =>
    constructor
    · intro hf' hmis
      exact hmis.2.2.not_flagOk hinv hf hmis.1 hmis.2.1 hf'
    · exact request_flagsOk hinv hf
  | exitGroup pid => exact iff_of_true (exitGroup_flagsOk hinv hf) not_false
  | call pid n =>
    refine iff_of_true ?_ not_false
    simp only [step]
    split
    · rename_i hslot
      rw [hinv.interceptor_eq pid hslot]
      exact hf
    · exact hf

/-- **The flag tells the truth all along a run** exactly if none of its requests is a START for a
pid that runs out of memory while the flag is 0, or a STOP for one of several pids in a list whose
flag is not 2. -/
theorem flagsOk_iff {p : List (Lts.Transition (State κ) Event)}
    (hrun : Lts.Run (Lts.ofFun (step K)) (loaded K handlers) p s) :
    ((∀ t ∈ p, FlagsOk K t.before) ∧ FlagsOk K s) ↔ ∀ t ∈ p, ¬ t.event.Misleads K t.before := by
  refine Lts.Run.throughout_iff (I := Inv K handlers) (C := fun s e => ¬ Event.Misleads K s e)
    (inv_loaded K handlers) (flagsOk_loaded K handlers) ?_ ?_ hrun
  · intro s e t hinv hst
    rw [← Lts.ofFun_iff.1 hst]
    exact inv_step hinv e
  · intro s e t hinv hf hst
    rw [← Lts.ofFun_iff.1 hst]
    exact step_flagsOk_iff hinv hf e

/-- Root starts monitoring syscall 5 for the pid. -/
def exStartPid (pid : Int) : Event := .request exRoot true requestStartMonitoring 5 pid

def exStopPid (pid : Int) : Event := .request exRoot true requestStopMonitoring 5 pid

theorem flagsOk_start :
    ((∀ t ∈ [(⟨loaded i386 id, exStartPid 8, exRun [exStartPid 8]⟩ : Lts.Transition _ _)],
      FlagsOk i386 t.before) ∧ FlagsOk i386 (exRun [exStartPid 8])) :=
  (flagsOk_iff (.snoc .nil rfl)).2 fun t ht => by
    rw [List.mem_singleton.1 ht]
    show ¬ (exStartPid 8).Misleads i386 (loaded i386 id)
    decide

/-- With pids 8 and 9 in the list of syscall 5, a STOP for 8 sets the flag to 0. -/
theorem stop_misleads :
    Reachable i386 id (exRun [exIntercept, exStartPid 8, exStartPid 9, exStopPid 8]) ∧
    ((exRun [exIntercept, exStartPid 8, exStartPid 9, exStopPid 8]).table 5).monitored = 0 ∧
    ((exRun [exIntercept, exStartPid 8, exStartPid 9, exStopPid 8]).table 5).myList = [9] ∧
    ¬ FlagsOk i386 (exRun [exIntercept, exStartPid 8, exStartPid 9, exStopPid 8]) := by
  have hflag : ((exRun [exIntercept, exStartPid 8, exStartPid 9, exStopPid 8]).table 5).monitored
      = 0 := by decide
  have hlist : ((exRun [exIntercept, exStartPid 8, exStartPid 9, exStopPid 8]).table 5).myList
      = [9] := by decide
  refine ⟨exRun_reachable _, hflag, hlist, fun hf => ?_⟩
  have hnil := (hf 5 (by decide) (by decide)).zero hflag
  rw [hlist] at hnil
  cases hnil

/-! ## Exiting processes -/

/-- `s'` is `s` without the process `p`, for the numbers that a request may name. -/
structure Forgets (K : Kernel) (p : Int) (s s' : State κ) : Prop where
  gone : ∀ n, 0 < n → n ≤ K.nrSyscalls → p ∉ (s'.table n).myList
  others : ∀ n, 0 < n → n ≤ K.nrSyscalls → ∀ q ≠ p,
    (q ∈ (s'.table n).myList ↔ q ∈ (s.table n).myList)
  counts : ∀ n, 0 < n → n ≤ K.nrSyscalls →
    (s'.table n).listcount = (s'.table n).myList.length
  flags : ∀ n, 0 < n → n ≤ K.nrSyscalls → (s.table n).monitored = 1 →
    (s.table n).myList ≠ [] → (s'.table n).myList = [] → (s'.table n).monitored = 0

theorem Mytable.mem_delPid (hok : ListOk e) {q : Int} :
    q ∈ (e.delPid pid).myList ↔ q ∈ e.myList ∧ q ≠ pid := by
  rw [Mytable.delPid_of_nodup pid hok.nodup]
  split
  · rw [Mytable.unlink_myList, hok.nodup.mem_erase_iff, and_comm]
  · rename_i hmem
    exact ⟨fun hq => ⟨hq, fun heq => hmem (heq ▸ hq)⟩, And.left⟩

/-- A list that `del_pid` empties takes a flag of 1 to 0. -/
theorem Mytable.delPid_monitored (hok : ListOk e) (hm : e.monitored = 1) (hne : e.myList ≠ [])
    (hnil : (e.delPid pid).myList = []) : (e.delPid pid).monitored = 0 := by
  rw [Mytable.delPid_of_nodup pid hok.nodup] at hnil ⊢
  split at hnil
  · rename_i hmem
    rw [if_pos hmem, Mytable.unlink_monitored]
    have hcount : e.listcount - 1 = 0 := by
      rw [← Mytable.unlink_listcount pid, (hok.unlink hmem).count, hnil]
      rfl
    rw [if_pos ⟨hcount, hm⟩]
  · exact absurd hnil hne

/-- **A process that exits is monitored nowhere** afterwards, and nothing else changes, exactly if
it was not in the list of `NR_syscalls`. -/
theorem forgets_iff (hr : Reachable K handlers s) (pid : Int) :
    Forgets K pid s (myExitGroup K pid s) ↔ pid ∉ (s.table K.nrSyscalls).myList := by
  have hinv := hr.inv
  constructor
  · intro hforget
    have hNR : 0 < K.nrSyscalls := K.exitGroup_pos.trans K.exitGroup_lt
    have hgone := hforget.gone K.nrSyscalls hNR le_rfl
    rwa [myExitGroup_table, if_neg fun hlt => lt_irrefl _ hlt.2] at hgone
  · intro hlast
    -- the entry of each number is what `del_pid` makes of it, also the last
    have hentry : ∀ n, 0 < n → n ≤ K.nrSyscalls →
        (myExitGroup K pid s).table n = (s.table n).delPid pid := by
      intro n hn hK
      rw [myExitGroup_table]
      split
      · rfl
      · have hn : n = K.nrSyscalls := by omega
        rw [Mytable.delPid_of_nodup pid (hinv.lists n).nodup, if_neg (hn ▸ hlast)]
    refine ⟨fun n hn hK => ?_, fun n hn hK q hq => ?_, fun n hn hK => ?_, fun n hn hK => ?_⟩
    · rw [hentry n hn hK, Mytable.mem_delPid (hinv.lists n)]
      exact fun hmem => hmem.2 rfl
    · rw [hentry n hn hK, Mytable.mem_delPid (hinv.lists n)]
      exact and_iff_left hq
    · rw [hentry n hn hK]
      exact ((hinv.lists n).delPid pid).count
    · rw [hentry n hn hK]
      exact Mytable.delPid_monitored (hinv.lists n)

theorem forgets_start :
    Forgets i386 8 (exRun [exStartPid 8]) (myExitGroup i386 8 (exRun [exStartPid 8])) :=
  (forgets_iff (exRun_reachable _) 8).2 (by decide)

/-- Root starts monitoring `NR_syscalls` for pid 8. -/
def exStartLast : Event := .request exRoot true requestStartMonitoring 337 8

/-- Pid 8 exits and stays in the list of `NR_syscalls`. -/
theorem exit_keeps_last :
    Reachable i386 id (exRun [exStartLast]) ∧ Accepted i386 337 ∧
    8 ∈ ((myExitGroup i386 8 (exRun [exStartLast])).table 337).myList ∧
    ¬ Forgets i386 8 (exRun [exStartLast]) (myExitGroup i386 8 (exRun [exStartLast])) := by
  have hmem : 8 ∈ ((myExitGroup i386 8 (exRun [exStartLast])).table 337).myList := by
    rw [myExitGroup_table]
    decide
  exact ⟨exRun_reachable _, by decide, hmem,
    fun hforget => hforget.gone 337 (by decide) (by decide) hmem⟩

end Cscc69.Interceptor
