import Cscc69.Interceptor.Invariants
import Mathlib.Data.Int.Interval

/-!
# The lists of monitored pids

In every state of a run no list has a pid twice, the pids are positive, and `listcount` is the
length of the list (`pidLists_ok`). It is why `del_pid_sysc` may stop at the first node of a pid:
no second one is left behind (`delPidSysc_gone`).

The pids of requests are `int`s, so that a list without duplicates has fewer than `2 ^ 31` of them
and `listcount` does not overflow (`listcount_lt`).
-/

namespace Cscc69.Interceptor

variable {κ : Type*} {K : Kernel} {handlers : ℕ → κ} {s : State κ} {c : Caller} {n : ℕ}
  {cmd pid r : Int} {e e' : Mytable κ} {h h' : Option (Handler κ)}

/-- **No list has a pid twice, all its pids are positive, and its length is counted.** -/
theorem pidLists_ok (K : Kernel) (handlers : ℕ → κ) (es : List Event) (n : ℕ) :
    ListOk ((run K handlers es).table n) :=
  (run_reachable es).inv.lists n

theorem delPidSysc_gone (hr : Reachable K handlers s) (pid : Int) (n : ℕ) :
    pid ∉ ((delPidSysc pid n s).2.table n).myList := by
  have hnd := (hr.inv.lists n).nodup
  unfold delPidSysc
  split
  · rw [State.setEntry_table, Function.update_self, Mytable.unlink_myList]
    exact hnd.not_mem_erase
  · assumption

/-! ## The counter is an `int` -/

/-- All pids of the list are `int`s. -/
def IntPids (e : Mytable κ) : Prop := ∀ p ∈ e.myList, p < 2 ^ 31

def Event.IntPid : Event → Prop
  | .request _ _ _ _ pid => pid < 2 ^ 31
  | .exitGroup _ => True
  | .call _ _ => True

theorem IntPids.unlink (hi : IntPids e) (pid : Int) : IntPids (e.unlink pid) := by
  intro p hp
  rw [Mytable.unlink_myList] at hp
  exact hi p (List.mem_of_mem_erase hp)

theorem IntPids.delPid (hi : IntPids e) (hnd : e.myList.Nodup) (pid : Int) :
    IntPids (e.delPid pid) := by
  rw [Mytable.delPid_of_nodup pid hnd]
  split
  · exact hi.unlink pid
  · exact hi

theorem Effect.intPids (heff : Effect c cmd pid e h r e' h') (hpid : pid < 2 ^ 31)
    (hi : IntPids e) : IntPids e' := by
  cases heff with
  | refused _ | intercepted _ _ _ | released _ _ _ | outOfMemory _ _ _ | startedAll _ _ _ _ _ =>
    exact hi
  | started _ _ _ =>
    intro p hp
    rcases List.mem_cons.1 hp with rfl | hp
    · exact hpid
    · exact hi p hp
  | stopped _ _ _ _ =>
    have hflag : IntPids { e with monitored := if e.monitored = 2 then 1 else 0 } := hi
    exact hflag.unlink pid
  | stoppedAll _ _ _ _ _ => exact fun p hp => absurd hp List.not_mem_nil

theorem intPids_step {ev : Event} (hinv : Inv K handlers s) (hev : ev.IntPid)
    (hi : ∀ n, IntPids (s.table n)) (n : ℕ) : IntPids ((step K s ev).table n) := by
  cases ev with
  | request c kmalloc cmd syscall pid =>
    rcases mySyscall_cases K c kmalloc cmd syscall pid s with
      ⟨_, heq⟩ | ⟨m, -, -, -, -, e', h', ht, -, heff⟩
    · simp only [step, heq]
      exact hi n
    · simp only [step, ht]
      by_cases hn : n = m
      · subst hn
        rw [Function.update_self]
        exact heff.intPids hev (hi n)
      · rw [Function.update_of_ne hn]
        exact hi n
  | exitGroup pid =>
    simp only [step, myExitGroup_table]
    split
    · exact (hi n).delPid (hinv.lists n).nodup pid
    · exact hi n
  | call pid m =>
    simp only [step]
    split
    · rename_i hslot
      rw [hinv.interceptor_eq pid hslot]
      exact hi n
    · exact hi n

theorem intPids_run (es : List Event) (hes : ∀ ev ∈ es, ev.IntPid) (n : ℕ) :
    IntPids ((run K handlers es).table n) := by
  induction es using List.reverseRecOn generalizing n with
  | nil =>
    show IntPids ((loaded K handlers).table n)
    rw [loaded_table]
    exact fun p hp => absurd hp List.not_mem_nil
  | append_singleton es ev ih =>
    have hstep : run K handlers (es ++ [ev]) = step K (run K handlers es) ev := by simp [run]
    rw [hstep]
    refine intPids_step (run_reachable es).inv (hes ev (by simp)) ?_ n
    exact fun m => ih (fun ev' hmem => hes ev' (List.mem_append_left _ hmem)) m

/-- Different positive `int`s are fewer than `2 ^ 31`. -/
theorem ListOk.length_lt (hok : ListOk e) (hi : IntPids e) : e.myList.length < 2 ^ 31 := by
  have hsub : e.myList.toFinset ⊆ Finset.Ioo 0 (2 ^ 31) := by
    intro p hp
    rw [List.mem_toFinset] at hp
    exact Finset.mem_Ioo.2 ⟨hok.pos p hp, hi p hp⟩
  have hcard := Finset.card_le_card hsub
  rw [List.toFinset_card_of_nodup hok.nodup, Int.card_Ioo] at hcard
  omega

/-- **`listcount` does not overflow.** -/
theorem listcount_lt (es : List Event) (hes : ∀ ev ∈ es, ev.IntPid) (n : ℕ) :
    ((run K handlers es).table n).listcount < 2 ^ 31 := by
  have hok : ListOk ((run K handlers es).table n) := (run_reachable es).inv.lists n
  have hlen := hok.length_lt (intPids_run es hes n)
  rw [hok.count]
  exact_mod_cast hlen

end Cscc69.Interceptor
