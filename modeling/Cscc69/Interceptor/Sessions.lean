import Cscc69.Interceptor.Monitor
import Mathlib.Data.Set.Function

/-!
# Scripts that run among other calls

A test of the module is a script of probes: a process makes a request and compares what is returned
with what should be, or makes a system call and looks for its line in the log, or ends. A session is
a run of system calls in which the probes of a script come in order, with calls of other processes
between them. The others make no requests about the numbers of the script, and the processes that it
names do not end but by its own probes. There is memory for the requests of the script, and the
calls whose lines it looks for return to their process, once: not so `exit` or `fork`.

It is enough to run the script on the plain machine, where nothing else is called
(`Session.passes`). For a probe does the same on every machine that knows the same of the numbers of
the script (`probe_call`), and a call of somebody else leaves alone what is known of them
(`background_call`).
-/

namespace Cscc69.Interceptor

open Machines

variable {κ : Type*} {K : Kernel} {handlers : ℕ → κ} {s : State κ} {n : ℕ}

/-! ## Probes -/

/-- A process that runs the test, as root or as a guest. -/
structure Process where
  pid : Int
  uid : ℕ

/-- What a process does: it makes a request and compares what is returned with `status`, makes the
system call and looks for its line in the log, or ends. -/
inductive Probe
  | request (cmd syscall pid status : Int)
  | monitor (sysno : ℕ)
  | exit

/-- The number that a probe is about. -/
def Probe.number : Probe → Option ℕ
  | .request _ syscall _ _ => some syscall.toNat
  | .monitor sysno => some sysno
  | .exit => none

/-- The call that a process waits for. -/
def Probe.awaits : Probe → Option ℕ
  | .monitor sysno => some sysno
  | .request _ _ _ _ | .exit => none

/-- The pid that a request names. -/
def Probe.names : Probe → Option Int
  | .request _ _ pid _ => some pid
  | .monitor _ | .exit => none

abbrev Script := List (Process × Probe)

/-! ## Sessions -/

/-- The process table as far as the probes of a process look: the process itself, init, and no other
pid that it names. -/
def Process.caller (p : Process) : Caller where
  pid := p.pid
  uid := p.uid
  owner q := if q = p.pid then some p.uid else if q = 1 then some 0 else none
  current_alive := by simp

/-- The call makes the probe. There is memory for a list node, and the calls that return to their
process, once, are those of the numbers in `returns`. -/
def Makes (K : Kernel) (returns : Set ℕ) (d : LoggedCall) : Process × Probe → Prop
  | (p, .request cmd syscall pid _) => d.ax = myCustomSyscall ∧ d.bx = cmd ∧ d.cx = syscall ∧
      d.dx = pid ∧ d.kmalloc = true ∧ d.caller.pid = p.pid ∧ d.caller.uid = p.uid ∧
      d.caller.owner p.pid = some p.uid ∧ d.caller.owner pid = p.caller.owner pid
  | (p, .monitor sysno) => d.ax = sysno ∧ d.caller.pid = p.pid ∧ sysno ∈ returns
  | (p, .exit) => d.ax = K.nrExitGroup ∧ d.caller.pid = p.pid

/-- The line `passed` is printed. -/
def Passes (d : LoggedCall) (o : Outcome κ) : Probe → Prop
  | .request _ _ _ status => o.result = some status
  | .monitor _ => d.line ∈ o.log
  | .exit => True

/-- The numbers that a script is about. -/
def Script.numbers (l : Script) : Set ℕ := {k | ∃ x ∈ l, x.2.number = some k}

/-- The pids that the requests of a script name. -/
def Script.pids (l : Script) : Set Int := {q | ∃ x ∈ l, x.2.names = some q}

/-- A call of somebody else: no request about a number of the script, nor the end of a process that
the script names. -/
def Background (K : Kernel) (l : Script) (d : LoggedCall) : Prop :=
  (d.ax = myCustomSyscall → d.cx.toNat ∉ l.numbers) ∧
    (d.ax = K.nrExitGroup → d.caller.pid ∉ l.pids)

instance (l : Script) (k : ℕ) : Decidable (k ∈ l.numbers) :=
  inferInstanceAs (Decidable (∃ x ∈ l, x.2.number = some k))

instance (l : Script) (q : Int) : Decidable (q ∈ l.pids) :=
  inferInstanceAs (Decidable (∃ x ∈ l, x.2.names = some q))

instance (K : Kernel) (l : Script) (d : LoggedCall) : Decidable (Background K l d) := by
  unfold Background; infer_instance

/-- The calls of a session in order, each with the probe it makes if it is one of the script. -/
structure Session (K : Kernel) (returns : Set ℕ) (l : Script)
    (es : List (LoggedCall × Option (Process × Probe))) : Prop where
  probes : es.filterMap Prod.snd = l
  makes : ∀ e ∈ es, ∀ x ∈ e.2, Makes K returns e.1 x
  background : ∀ e ∈ es, e.2 = none → Background K l e.1

/-- Every probe of the session passes. -/
def AllPass (es : List (LoggedCall × Option (Process × Probe))) (os : List (Outcome κ)) : Prop :=
  List.Forall₂ (fun e o => ∀ x ∈ e.2, Passes e.1 o x.2) es os

/-! ## Probes on the plain machine -/

/-- The state after a probe that passes. -/
def Monitor.probe (K : Kernel) (m : Monitor) : Process × Probe → Option Monitor
  | (p, .request cmd syscall pid status) =>
    let r := m.request K p.caller true cmd syscall pid
    if r.1 = status then some r.2 else none
  | (p, .monitor sysno) =>
    if (m sysno).logs p.pid ∧ sysno ≠ myCustomSyscall ∧ sysno ≠ K.nrExitGroup then some m else none
  | (p, .exit) => some (m.exit K p.pid)

variable {m v v' : Monitor} {d : LoggedCall} {x : Process × Probe} {l : Script} {W returns : Set ℕ}
  {p : Process} {w w' : Watch} {cmd syscall pid status : Int}

/-- The checks look at the owners of two pids only. -/
theorem requestError_congr {c c' : Caller} (huid : c.uid = c'.uid)
    (hself : c.owner c.pid = c'.owner c'.pid) (hnamed : c.owner pid = c'.owner pid) :
    requestError K c cmd syscall pid = requestError K c' cmd syscall pid := by
  unfold requestError checkPidFromList
  rw [huid, hself, hnamed]

/-- A request depends on what is known of its number alone, and changes nothing else. -/
theorem request_eqOn {c c' : Caller} {kmalloc : Bool} (heq : Set.EqOn m v W)
    (hW : syscall.toNat ∈ W)
    (herr : requestError K c cmd syscall pid = requestError K c' cmd syscall pid) :
    (m.request K c kmalloc cmd syscall pid).1 = (v.request K c' kmalloc cmd syscall pid).1 ∧
    Set.EqOn (m.request K c kmalloc cmd syscall pid).2 (v.request K c' kmalloc cmd syscall pid).2
      W := by
  unfold Monitor.request
  rw [herr]
  cases requestError K c' cmd syscall pid with
  | some err => exact ⟨rfl, heq⟩
  | none =>
    dsimp only
    rw [heq hW]
    refine ⟨rfl, fun k hk => ?_⟩
    by_cases hkn : k = syscall.toNat
    · subst hkn
      rw [Function.update_self, Function.update_self]
    · rw [Function.update_of_ne hkn, Function.update_of_ne hkn]
      exact heq hk

theorem exit_eqOn (heq : Set.EqOn m v W) (pid : Int) :
    Set.EqOn (m.exit K pid) (v.exit K pid) W := by
  intro k hk
  unfold Monitor.exit
  rw [heq hk]

theorem logged_result {line : LogLine} {logs : Bool} {o : Outcome κ} :
    (o.logged line logs).result = o.result := by
  unfold Outcome.logged
  split <;> rfl

/-- **A probe.** If it passes on the plain machine, then the call that makes it passes on every
machine that knows the same of the numbers of the script. -/
theorem probe_call (handlers : ℕ → κ) (hx : x ∈ l) (hmakes : Makes K returns d x)
    (heq : Set.EqOn m v l.numbers) (hv : v.probe K x = some v') :
    Passes d (m.call K handlers d).1 x.2 ∧
      Set.EqOn (m.call K handlers d).2 v' l.numbers := by
  obtain ⟨p, probe⟩ := x
  cases probe with
  | request cmd syscall pid status =>
    obtain ⟨hax, rfl, rfl, rfl, hmem, hpid, huid, hself, hnamed⟩ := hmakes
    have hne : d.ax ≠ K.nrExitGroup := by
      rw [hax]
      exact K.exitGroup_pos.ne
    have hW : d.cx.toNat ∈ l.numbers := ⟨_, hx, rfl⟩
    have herr : requestError K d.caller d.bx d.cx d.dx = requestError K p.caller d.bx d.cx d.dx :=
      requestError_congr huid (by rw [hpid, hself]; simp [Process.caller]) hnamed
    obtain ⟨hret, hnext⟩ := request_eqOn heq hW herr
    simp only [Monitor.probe] at hv
    split at hv
    · rename_i hstatus
      cases hv
      simp only [Monitor.call, Monitor.handle, if_neg hne, if_pos hax, hmem, Passes, logged_result]
      exact ⟨by rw [hret, hstatus], hnext⟩
    · cases hv
  | monitor sysno =>
    obtain ⟨rfl, hpid, -⟩ := hmakes
    have hW : d.ax ∈ l.numbers := ⟨_, hx, rfl⟩
    simp only [Monitor.probe] at hv
    split at hv
    · rename_i hlogs
      obtain ⟨hlogs, hne, hne'⟩ := hlogs
      cases hv
      simp only [Monitor.call, Monitor.handle, if_neg hne, if_neg hne', Passes, heq hW, hpid, hlogs,
        Outcome.logged, if_true]
      exact ⟨List.mem_cons_self, heq⟩
    · cases hv
  | exit =>
    obtain ⟨hax, hpid⟩ := hmakes
    simp only [Monitor.probe, Option.some.injEq] at hv
    subst hv
    simp only [Monitor.call, Monitor.handle, if_pos hax, hpid]
    exact ⟨trivial, exit_eqOn heq p.pid⟩

/-! ## Calls of others -/

theorem request_of_ne {c : Caller} {kmalloc : Bool} {k : ℕ} (hk : k ≠ syscall.toNat) :
    (m.request K c kmalloc cmd syscall pid).2 k = m k := by
  unfold Monitor.request
  cases requestError K c cmd syscall pid with
  | some err => rfl
  | none => exact Function.update_of_ne hk _ _

/-- **A call of somebody else.** It leaves alone what is known of the numbers of the script, as long
as all the pids listed there are named in it. -/
theorem background_call (handlers : ℕ → κ) (hd : Background K l d) (heq : Set.EqOn m v l.numbers)
    (hpids : ∀ k, ∀ q ∈ (v k).pids, q ∈ l.pids) :
    Set.EqOn (m.call K handlers d).2 v l.numbers := by
  intro k hk
  show (m.handle K handlers d).2 k = v k
  unfold Monitor.handle
  split
  · rename_i hexit
    have hnot : d.caller.pid ∉ (m k).pids := by
      rw [heq hk]
      exact fun hin => hd.2 hexit (hpids k _ hin)
    show (if 1 ≤ k ∧ k < K.nrSyscalls then (m k).drop d.caller.pid else m k) = v k
    rw [Watch.drop_of_notMem hnot, ite_self]
    exact heq hk
  split
  · rename_i hreq
    have hne : k ≠ d.cx.toNat := fun h => hd.1 hreq (h ▸ hk)
    exact (request_of_ne hne).trans (heq hk)
  · exact heq hk

/-- A command lists no pid but the one that it names. -/
theorem Watch.mem_command {kmalloc : Bool} {q : Int}
    (hq : q ∈ (w.command kmalloc cmd pid).2.pids) : q ∈ w.pids ∨ q = pid := by
  unfold Watch.command at hq
  split at hq
  · unfold Watch.intercept at hq
    split at hq <;> exact .inl hq
  split at hq
  · unfold Watch.release at hq
    split at hq <;> exact .inl hq
  split at hq
  · unfold Watch.start at hq
    split_ifs at hq
    all_goals first | exact .inl hq | exact (Finset.mem_insert.1 hq).symm
  · unfold Watch.stop at hq
    split_ifs at hq
    all_goals
      first
      | exact .inl hq
      | exact absurd hq (Finset.notMem_empty q)
      | exact .inl (Finset.mem_of_mem_erase hq)

/-- So after a probe all the listed pids are still named in the script. -/
theorem probe_pids (hx : x ∈ l) (hv : v.probe K x = some v')
    (hpids : ∀ k, ∀ q ∈ (v k).pids, q ∈ l.pids) : ∀ k, ∀ q ∈ (v' k).pids, q ∈ l.pids := by
  intro k q hq
  obtain ⟨p, probe⟩ := x
  cases probe with
  | request cmd syscall pid status =>
    simp only [Monitor.probe] at hv
    split at hv
    · cases hv
      unfold Monitor.request at hq
      cases herr : requestError K p.caller cmd syscall pid with
      | some err =>
        rw [herr] at hq
        exact hpids k q hq
      | none =>
        rw [herr] at hq
        dsimp only at hq
        by_cases hk : k = syscall.toNat
        · subst hk
          rw [Function.update_self] at hq
          obtain hq | rfl := Watch.mem_command hq
          · exact hpids _ q hq
          · exact ⟨_, hx, rfl⟩
        · rw [Function.update_of_ne hk] at hq
          exact hpids k q hq
    · cases hv
  | monitor sysno =>
    simp only [Monitor.probe] at hv
    split at hv
    · cases hv
      exact hpids k q hq
    · cases hv
  | exit =>
    simp only [Monitor.probe, Option.some.injEq] at hv
    subst hv
    unfold Monitor.exit at hq
    split at hq
    · exact hpids k q (Finset.mem_of_mem_erase hq)
    · exact hpids k q hq

/-! ## Whole sessions -/

variable {es : List (LoggedCall × Option (Process × Probe))}

/-- **A session.** If the script passes on the plain machine alone, then it passes on every machine
that starts with the same of its numbers, with the calls of others between the probes. -/
theorem session_run (handlers : ℕ → κ)
    (hmakes : ∀ e ∈ es, ∀ x ∈ e.2, x ∈ l ∧ Makes K returns e.1 x)
    (hback : ∀ e ∈ es, e.2 = none → Background K l e.1)
    (hv : (es.filterMap Prod.snd).foldlM (Monitor.probe K) v = some v')
    (heq : Set.EqOn m v l.numbers) (hpids : ∀ k, ∀ q ∈ (v k).pids, q ∈ l.pids) :
    ∃ os m', Machines.run (total (Monitor.call K handlers)) m (es.map Prod.fst) = some (os, m') ∧
      AllPass es os ∧ Set.EqOn m' v' l.numbers := by
  induction es generalizing m v with
  | nil =>
    cases hv
    exact ⟨[], m, rfl, .nil, heq⟩
  | cons e es ih =>
    obtain ⟨d, o⟩ := e
    have hmakes' := fun e he => hmakes e (List.mem_cons_of_mem (d, o) he)
    have hback' := fun e he => hback e (List.mem_cons_of_mem (d, o) he)
    cases o with
    | none =>
      have heq' := background_call handlers (hback _ List.mem_cons_self rfl) heq hpids
      obtain ⟨os, m', hrun, hpass, hend⟩ := ih hmakes' hback' hv heq' hpids
      refine ⟨(m.call K handlers d).1 :: os, m', ?_, .cons (by simp) hpass, hend⟩
      simp only [List.map_cons, Machines.run, total, hrun]
      rfl
    | some x =>
      have hv : (x :: es.filterMap Prod.snd).foldlM (Monitor.probe K) v = some v' := hv
      rw [List.foldlM_cons] at hv
      obtain ⟨v₁, hv₁, hv⟩ := Option.bind_eq_some_iff.1 hv
      obtain ⟨hx, hx'⟩ := hmakes _ List.mem_cons_self x rfl
      obtain ⟨hpasses, heq'⟩ := probe_call handlers hx hx' heq hv₁
      obtain ⟨os, m', hrun, hpass, hend⟩ :=
        ih hmakes' hback' hv heq' (probe_pids hx hv₁ hpids)
      refine ⟨(m.call K handlers d).1 :: os, m', ?_, .cons ?_ hpass, hend⟩
      · simp only [List.map_cons, Machines.run, total, hrun]
        rfl
      · rintro _ ⟨⟩
        exact hpasses

/-- Nothing is known of the entry. -/
def Mytable.Idle (e : Mytable κ) : Prop := e.intercepted = 0 ∧ e.monitored = 0 ∧ e.myList = []

theorem Shows.idle_iff {e : Mytable κ} (h : Shows e w) : e.Idle ↔ w = .idle := by
  have hpids : e.myList = [] ↔ w.pids = ∅ := by
    rw [List.eq_nil_iff_forall_not_mem, Finset.eq_empty_iff_forall_notMem]
    exact forall_congr' fun q => not_congr (h.pids q)
  unfold Mytable.Idle
  rw [h.released_iff, hpids]
  obtain ⟨hooked, mode, pids⟩ := w
  have hmode : e.monitored = 0 ↔ mode = .off := h.monitored_iff .off
  simp only [hmode, Watch.idle, Watch.mk.injEq]

/-- And so it passes on the module. -/
theorem Session.passes (hes : Session K returns l es) (h : Mirrors K handlers s m)
    (hidle : ∀ k ∈ l.numbers, (s.table k).Idle)
    (hv : l.foldlM (Monitor.probe K) .idle = some .idle) :
    ∃ os s', Machines.run (kernelModule K) s (es.map Prod.fst) = some (os, s') ∧ AllPass es os ∧
      ∀ k ∈ l.numbers, (s'.table k).Idle := by
  have hmakes : ∀ e ∈ es, ∀ x ∈ e.2, x ∈ l ∧ Makes K returns e.1 x := by
    intro e he x hx
    refine ⟨?_, hes.makes e he x hx⟩
    rw [← hes.probes]
    exact List.mem_filterMap.2 ⟨e, he, hx⟩
  have heq : Set.EqOn m Monitor.idle l.numbers := fun k hk => (h.shows k).idle_iff.1 (hidle k hk)
  obtain ⟨os, m', hrun, hpass, hend⟩ := session_run handlers hmakes hes.background
    (hes.probes ▸ hv) heq fun k q hq => absurd hq (Finset.notMem_empty q)
  have hsim := (kernelModule_simulates K handlers).run h (es.map Prod.fst)
  rw [hrun] at hsim
  generalize hmod : Machines.run (kernelModule K) s (es.map Prod.fst) = r at hsim
  cases hsim with
  | @some r _ hr =>
    obtain ⟨hos, hmirrors⟩ := hr
    refine ⟨r.1, r.2, rfl, hos ▸ hpass, fun k hk => ?_⟩
    exact (hmirrors.shows k).idle_iff.2 (hend hk)

theorem exists_mirrors {calls : List LoggedCall} {os : List (Outcome κ)}
    (hrun : Machines.run (kernelModule K) (loaded K handlers) calls = some (os, s)) :
    ∃ m, Mirrors K handlers s m := by
  have hsim := (kernelModule_simulates K handlers).run (mirrors_loaded K handlers) calls
  rw [hrun] at hsim
  generalize Machines.run (total (Monitor.call K handlers)) .idle calls = r at hsim
  cases hsim with
  | @some _ r hr => exact ⟨r.2, hr.2⟩

theorem numbers_of_about (h : ∀ x ∈ l, ∀ k ∈ x.2.number, k = n) {k : ℕ} (hk : k ∈ l.numbers) :
    k = n := by
  obtain ⟨x, hx, hk⟩ := hk
  exact h x hx k hk

/-! ## Scripts among given calls -/

/-- A call that makes the probe. -/
def Probe.call (K : Kernel) (p : Process) : Probe → LoggedCall
  | .request cmd syscall pid _ => ⟨⟨p.caller, true, myCustomSyscall, cmd, syscall, pid⟩, 0, 0, 0⟩
  | .monitor sysno => ⟨⟨p.caller, true, sysno, 0, 0, 0⟩, 0, 0, 0⟩
  | .exit => ⟨⟨p.caller, true, K.nrExitGroup, 0, 0, 0⟩, 0, 0, 0⟩

/-- The calls of a script, with the calls of `others` before each of them. -/
def Script.among (K : Kernel) (others : List LoggedCall) (l : Script) :
    List (LoggedCall × Option (Process × Probe)) :=
  l.flatMap fun x => others.map (·, none) ++ [(x.2.call K x.1, some x)]

theorem mem_among {others : List LoggedCall} {e : LoggedCall × Option (Process × Probe)} :
    e ∈ l.among K others ↔
      ∃ x ∈ l, (∃ d ∈ others, (d, none) = e) ∨ e = (x.2.call K x.1, some x) := by
  simp only [Script.among, List.mem_flatMap, List.mem_append, List.mem_map, List.mem_singleton]

theorem session_among {others : List LoggedCall} (hothers : ∀ d ∈ others, Background K l d)
    (hreturns : ∀ x ∈ l, ∀ k ∈ x.2.awaits, k ∈ returns) :
    Session K returns l (l.among K others) where
  probes := by
    unfold Script.among
    rw [List.filterMap_flatMap]
    simp [List.filterMap_append, List.filterMap_map]
  makes := by
    intro e he x hx
    obtain ⟨y, hy, ⟨d, -, rfl⟩ | rfl⟩ := mem_among.1 he
    · cases hx
    obtain rfl : y = x := Option.some.inj hx
    obtain ⟨p, probe⟩ := y
    cases probe with
    | request cmd syscall pid status =>
      exact ⟨rfl, rfl, rfl, rfl, rfl, rfl, rfl, if_pos rfl, rfl⟩
    | monitor sysno => exact ⟨rfl, rfl, hreturns _ hy sysno rfl⟩
    | exit => exact ⟨rfl, rfl⟩
  background := by
    intro e he hnone
    obtain ⟨y, -, ⟨d, hd, rfl⟩ | rfl⟩ := mem_among.1 he
    · exact hothers d hd
    · cases hnone

end Cscc69.Interceptor
