import Cscc69.Interceptor.InFlight
import Cscc69.Interceptor.Unload

/-!
# What late calls cannot break

A body of `interceptor` that runs after a release spoils the flag of its number (`InFlight`). It
does not spoil more than that. The saved handlers stay right, so a call in flight goes on to its
own handler however late it is, and `RELEASE` of a number with a spoilt flag writes the handler
that the slot holds already. So `exit_function` still clears every slot that it looks at.

Main result: `calls_go_on`.
-/

namespace Cscc69.Interceptor

variable {κ : Type*} {K : Kernel} {handlers : ℕ → κ} {s : State κ} {c : Caller} {b : Busy κ}
  {n : ℕ}

/-! ## The two hijacked calls -/

/-- No event writes to the saved handlers of the two hijacked system calls. -/
theorem callStep_origs (b : Busy κ) (e : CallEvent) :
    (callStep K b e).state.origs = b.state.origs := by
  cases e with
  | request c kmalloc cmd syscall pid =>
    rcases mySyscall_cases K c kmalloc cmd syscall pid b.state with
      ⟨-, heq⟩ | ⟨_, -, -, -, hdoes⟩
    · simp only [callStep, heq]
    · exact hdoes.origs
  | exitGroup pid => exact delPid_origs K pid b.state.lockPidlist
  | dispatch pid n =>
    simp only [callStep]
    split
    · rfl
    · rfl
  | body i =>
    cases hcall : b.calls[i]? with
    | none => simp only [callStep, hcall]
    | some call =>
      rw [callStep_body hcall]
      rfl

theorem CallRun.origs {p : List (Lts.Transition (Busy κ) CallEvent)}
    (hrun : CallRun K handlers p b) : b.state.origs = (loaded K handlers).origs := by
  refine Lts.Run.invariant (I := fun b : Busy κ => b.state.origs = (loaded K handlers).origs)
    rfl ?_ hrun
  intro b e b' h hst
  rw [← Lts.ofFun_iff.1 hst, callStep_origs]
  exact h

/-! ## The loop of `exit_function` -/

/-- A slot without `interceptor` holds its own handler. -/
theorem Settled.slot (hb : Settled K handlers b)
    (hslot : b.state.sysCallTable n ≠ some .interceptor) :
    b.state.sysCallTable n = loadedSlot K handlers n := by
  rcases hb.latched n with ⟨heq, -⟩ | ⟨heq, -, -⟩
  · exact heq
  · exact absurd heq hslot

/-- After `k` passes: the slots below `k` are clear, whatever the flags said. -/
structure ClearedTo (K : Kernel) (handlers : ℕ → κ) (b : Busy κ) (k : ℕ) (s : State κ) :
    Prop where
  settled : Settled K handlers { b with state := s }
  origs : s.origs = b.state.origs
  clear : ∀ n < k, s.sysCallTable n ≠ some .interceptor

theorem ClearedTo.succ {k : ℕ} (hroot : c.uid = 0) (hk : k < K.nrSyscalls)
    (h : ClearedTo K handlers b k s) :
    ClearedTo K handlers b (k + 1) (releaseIndex K c s k) := by
  unfold releaseIndex
  split
  · rename_i hi
    refine ⟨h.settled.request c true requestSyscallRelease k k,
      (callStep_origs { b with state := s } (.request c true requestSyscallRelease k k)).trans
        h.origs, fun n hn => ?_⟩
    by_cases hpos : 0 < k
    · rw [mySyscall_release hroot true hpos hk.le, release, if_neg (by rw [hi]; decide)]
      show Function.update s.sysCallTable k _ n ≠ _
      by_cases hnk : n = k
      · subst hnk
        rw [Function.update_self]
        have hne := loadedSlot_ne_interceptor K handlers n
        rcases h.settled.latched n with ⟨-, hzero | ⟨-, hf⟩⟩ | ⟨-, -, hf⟩
        · rw [hi] at hzero
          cases hzero
        · exact hf ▸ hne
        · exact hf ▸ hne
      · rw [Function.update_of_ne hnk]
        exact h.clear n (by omega)
    · -- number 0 is refused, and never intercepted
      have hsettled := h.settled.request c true requestSyscallRelease k k
      intro hslot
      have hrange := hsettled.accepted n hslot
      omega
  · rename_i hi
    refine ⟨h.settled, h.origs, fun n hn hslot => ?_⟩
    rcases Nat.lt_succ_iff_lt_or_eq.1 hn with hlt | rfl
    · exact h.clear n hlt hslot
    · rcases h.settled.latched n with ⟨heq, -⟩ | ⟨-, hone, -⟩
      · exact loadedSlot_ne_interceptor K handlers n (heq.symm.trans hslot)
      · exact hi hone

theorem clearedTo_foldl (hroot : c.uid = 0) (hb : Settled K handlers b) {k : ℕ}
    (hk : k ≤ K.nrSyscalls) :
    ClearedTo K handlers b k ((List.range k).foldl (releaseIndex K c) b.state.lockCalltable) := by
  induction k with
  | zero =>
    exact ⟨⟨hb.lists, hb.latched, hb.accepted, hb.calls⟩, rfl, fun n hn => absurd hn (by omega)⟩
  | succ k ih =>
    rw [List.range_succ, List.foldl_append]
    exact (ih (by omega)).succ hroot (by omega)

/-- Unloading after late calls: every slot but that of `NR_syscalls` holds its old handler. -/
theorem Settled.exitFunction (hb : Settled K handlers b)
    (horigs : b.state.origs = (loaded K handlers).origs) (hroot : c.uid = 0)
    (hn : n ≠ K.nrSyscalls) :
    (exitFunction K c b.state).sysCallTable n = some (.kernel (handlers n)) := by
  have h := clearedTo_foldl (c := c) hroot hb (le_refl K.nrSyscalls)
  set s := (List.range K.nrSyscalls).foldl (releaseIndex K c) b.state.lockCalltable with hs
  have hexit : (Interceptor.exitFunction K c b.state).sysCallTable =
      Function.update (Function.update s.sysCallTable myCustomSyscall s.origCustomSyscall)
        K.nrExitGroup s.origExitGroup := rfl
  have hsaved := h.origs.trans horigs
  rw [hexit]
  by_cases hg : n = K.nrExitGroup
  · rw [hg, Function.update_self]
    exact congrArg Prod.snd hsaved
  rw [Function.update_of_ne hg]
  by_cases hz : n = myCustomSyscall
  · rw [hz, Function.update_self]
    exact congrArg Prod.fst hsaved
  rw [Function.update_of_ne hz]
  have hslot : s.sysCallTable n ≠ some .interceptor := by
    rcases Nat.lt_or_ge n K.nrSyscalls with hlt | hge
    · exact h.clear n hlt
    · intro hslot
      have hrange := h.settled.accepted n hslot
      omega
  refine (h.settled.slot hslot).trans ?_
  rw [loadedSlot_eq, if_neg hg, if_neg hz]

/-! ## Runs -/

/-- **Late calls do no further harm.** However requests, exits, calls and their bodies are
interleaved, every call in flight will go on to its own handler. A call made now goes there at once
or by `interceptor`, and root's unloading puts every handler back but that of `NR_syscalls`. -/
theorem calls_go_on {p : List (Lts.Transition (Busy κ) CallEvent)}
    (hrun : CallRun K handlers p b) :
    (∀ call ∈ b.calls,
      (interceptor call.1 call.2 b.state).2.1 = loadedSlot K handlers call.2) ∧
    (∀ pid n, b.state.sysCallTable n = loadedSlot K handlers n ∨
      b.state.sysCallTable n = some .interceptor ∧
        (interceptor pid n b.state).2.1 = loadedSlot K handlers n) ∧
    ∀ c, c.uid = 0 → ∀ n, n ≠ K.nrSyscalls →
      (exitFunction K c b.state).sysCallTable n = some (.kernel (handlers n)) := by
  have hb := hrun.released.1
  refine ⟨fun call hcall => (hb.calls call hcall).1, fun pid n => ?_, fun c hroot n hn => ?_⟩
  · rcases hb.latched n with ⟨heq, -⟩ | ⟨heq, -, hf⟩
    · exact .inl heq
    · exact .inr ⟨heq, hf⟩
  · exact hb.exitFunction hrun.origs hroot hn

/-- Pid 8 has called 5, which has been released since, and the body has not run yet. -/
theorem calls_go_on_late :
    (interceptor 8 5 (exCalls [exReleaseCall, .dispatch 8 5, exInterceptCall]).2.state).2.1 =
      some (.kernel 5) :=
  (calls_go_on (exCalls_run [exReleaseCall, .dispatch 8 5, exInterceptCall])).1 (8, 5)
    (List.mem_singleton.2 rfl)

end Cscc69.Interceptor
