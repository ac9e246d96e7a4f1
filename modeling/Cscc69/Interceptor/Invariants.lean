import Cscc69.Interceptor.Effects

/-!
# What holds in every state of the loaded module

Two facts about each system call, kept by every request, exit and intercepted call:

* `ListOk`: its list has no pid twice, only positive pids, and as many nodes as `listcount` says;
* `Hooked`: either it is not intercepted and its slot holds the handler of the loaded module's
  table, or it is intercepted, its slot holds `interceptor` and the handler is saved in `f`.

Both are proved for one entry against `Effect`, and lifted to runs by `step_inv`.
-/

namespace Cscc69.Interceptor

variable {κ : Type*} {K : Kernel} {handlers : ℕ → κ} {s : State κ}

/-! ## Lists -/

structure ListOk (e : Mytable κ) : Prop where
  nodup : e.myList.Nodup
  pos : ∀ p ∈ e.myList, 0 < p
  count : e.listcount = e.myList.length

theorem ListOk.of_eq {e e' : Mytable κ} (h : ListOk e) (hl : e'.myList = e.myList)
    (hc : e'.listcount = e.listcount) : ListOk e' :=
  ⟨by rw [hl]; exact h.nodup, by rw [hl]; exact h.pos, by rw [hl, hc]; exact h.count⟩

theorem ListOk.unlink {e : Mytable κ} {pid : Int} (h : ListOk e) (hmem : pid ∈ e.myList) :
    ListOk (e.unlink pid) where
  nodup := by rw [Mytable.unlink_myList]; exact h.nodup.erase pid
  pos p hp := by
    rw [Mytable.unlink_myList] at hp
    exact h.pos p (List.mem_of_mem_erase hp)
  count := by
    have hlen := List.length_erase_of_mem hmem
    have hpos := List.length_pos_of_mem hmem
    rw [Mytable.unlink_listcount, Mytable.unlink_myList, h.count]
    omega

theorem ListOk.delPid {e : Mytable κ} (pid : Int) (h : ListOk e) : ListOk (e.delPid pid) := by
  rw [Mytable.delPid_of_nodup pid h.nodup]
  split
  · exact h.unlink ‹_›
  · exact h

theorem Effect.listOk {c : Caller} {cmd pid r : Int} {e e' : Mytable κ}
    {h h' : Option (Handler κ)} (heff : Effect c cmd pid e h r e' h') (hok : ListOk e) :
    ListOk e' := by
  cases heff with
  | refused _ => exact hok
  | intercepted _ _ _ | released _ _ _ | outOfMemory _ _ _ | startedAll _ _ _ _ _ =>
    exact hok.of_eq rfl rfl
  | started _ hname hmem =>
    exact {
      nodup := List.nodup_cons.2 ⟨hmem, hok.nodup⟩
      pos := fun p hp => by
        rcases List.mem_cons.1 hp with rfl | hp
        · exact hname.1
        · exact hok.pos p hp
      count := by simp [hok.count] }
  | stopped _ _ _ hmem =>
    have hflag : ListOk { e with monitored := if e.monitored = 2 then 1 else 0 } :=
      hok.of_eq rfl rfl
    exact hflag.unlink hmem
  | stoppedAll _ _ _ _ _ => exact ⟨List.nodup_nil, by simp, rfl⟩

/-! ## Slots and saved handlers -/

/-- Entry `e` and slot `h` of a system call whose handler is `orig`. -/
def Hooked (orig : Option (Handler κ)) (e : Mytable κ) (h : Option (Handler κ)) : Prop :=
  e.intercepted = 0 ∧ h = orig ∨
    e.intercepted = 1 ∧ h = some .interceptor ∧ e.f = orig

theorem Hooked.of_eq {orig : Option (Handler κ)} {e e' : Mytable κ} {h : Option (Handler κ)}
    (hk : Hooked orig e h) (hf : e'.f = e.f) (hi : e'.intercepted = e.intercepted) :
    Hooked orig e' h := by
  unfold Hooked
  rw [hf, hi]
  exact hk

theorem Hooked.delPid {orig : Option (Handler κ)} {e : Mytable κ} {h : Option (Handler κ)}
    (pid : Int) (hk : Hooked orig e h) (hnd : e.myList.Nodup) : Hooked orig (e.delPid pid) h :=
  hk.of_eq (Mytable.delPid_f pid hnd) (Mytable.delPid_intercepted pid hnd)

theorem Effect.hooked {c : Caller} {cmd pid r : Int} {orig : Option (Handler κ)}
    {e e' : Mytable κ} {h h' : Option (Handler κ)} (heff : Effect c cmd pid e h r e' h')
    (hk : Hooked orig e h) : Hooked orig e' h' := by
  cases heff with
  | refused _ => exact hk
  | intercepted _ _ hne =>
    rcases hk with ⟨_, hh⟩ | ⟨hi, _⟩
    · exact .inr ⟨rfl, rfl, hh⟩
    · exact absurd hi hne
  | released _ _ hne =>
    rcases hk with ⟨hi, _⟩ | ⟨_, _, hf⟩
    · exact absurd hi hne
    · exact .inl ⟨rfl, hf⟩
  | started _ _ _ | outOfMemory _ _ _ | startedAll _ _ _ _ _ | stoppedAll _ _ _ _ _ =>
    exact hk.of_eq rfl rfl
  | stopped _ _ _ _ =>
    exact hk.of_eq (Mytable.unlink_f pid _) (Mytable.unlink_intercepted pid _)

/-! ## The invariant -/

/-- The handler of a system call while the module is loaded and does not intercept it. -/
def loadedSlot (K : Kernel) (handlers : ℕ → κ) (n : ℕ) : Option (Handler κ) :=
  (loaded K handlers).sysCallTable n

theorem loadedSlot_eq (K : Kernel) (handlers : ℕ → κ) (n : ℕ) :
    loadedSlot K handlers n =
      if n = K.nrExitGroup then some .myExitGroup
      else if n = myCustomSyscall then some .mySyscall else some (.kernel (handlers n)) := by
  show Function.update (Function.update (State.boot handlers).sysCallTable _ _) _ _ n = _
  simp only [Function.update_apply]
  rfl

theorem loadedSlot_ne_interceptor (K : Kernel) (handlers : ℕ → κ) (n : ℕ) :
    loadedSlot K handlers n ≠ some .interceptor := by
  rw [loadedSlot_eq]
  split <;> [skip; split] <;> simp

structure Inv (K : Kernel) (handlers : ℕ → κ) (s : State κ) : Prop where
  lists : ∀ n, ListOk (s.table n)
  hooks : ∀ n, Hooked (loadedSlot K handlers n) (s.table n) (s.sysCallTable n)
  /-- Only the numbers a request may name are ever intercepted. -/
  outside : ∀ n, ¬ (0 < n ∧ n ≤ K.nrSyscalls) → (s.table n).intercepted = 0
  origs : s.origs =
    (some (.kernel (handlers myCustomSyscall)), some (.kernel (handlers K.nrExitGroup)))

theorem loaded_table (K : Kernel) (handlers : ℕ → κ) (n : ℕ) :
    (loaded K handlers).table n = .zero := by
  show (if 1 ≤ n ∧ n < K.nrSyscalls + 1 then _ else _) = _
  split <;> rfl

theorem inv_loaded (K : Kernel) (handlers : ℕ → κ) : Inv K handlers (loaded K handlers) where
  lists n := by
    rw [loaded_table]
    exact ⟨List.nodup_nil, by simp [Mytable.zero], rfl⟩
  hooks n := by
    rw [loaded_table]
    exact .inl ⟨rfl, rfl⟩
  outside n _ := by rw [loaded_table]; rfl
  origs := rfl

theorem inv_mySyscall (c : Caller) (kmalloc : Bool) (cmd syscall pid : Int)
    (h : Inv K handlers s) : Inv K handlers (mySyscall K c kmalloc cmd syscall pid s).2 := by
  rcases mySyscall_cases K c kmalloc cmd syscall pid s with
    ⟨_, heq⟩ | ⟨n, -, hpos, hle, ho, e', h', ht, hs, heff⟩
  · rw [heq]; exact h
  · refine ⟨fun m => ?_, fun m => ?_, fun m hm => ?_, ho.trans h.origs⟩
    · rw [ht]
      by_cases hm : m = n
      · subst hm
        rw [Function.update_self]
        exact heff.listOk (h.lists m)
      · rw [Function.update_of_ne hm]
        exact h.lists m
    · rw [ht, hs]
      by_cases hm : m = n
      · subst hm
        rw [Function.update_self, Function.update_self]
        exact heff.hooked (h.hooks m)
      · rw [Function.update_of_ne hm, Function.update_of_ne hm]
        exact h.hooks m
    · have hmn : m ≠ n := fun heq => hm (heq ▸ ⟨hpos, hle⟩)
      rw [ht, Function.update_of_ne hmn]
      exact h.outside m hm

@[simp] theorem myExitGroup_sysCallTable (K : Kernel) (pid : Int) (s : State κ) :
    (myExitGroup K pid s).sysCallTable = s.sysCallTable :=
  delPid_sysCallTable K pid s.lockPidlist

theorem myExitGroup_table (K : Kernel) (pid : Int) (s : State κ) (n : ℕ) :
    (myExitGroup K pid s).table n =
      if 1 ≤ n ∧ n < K.nrSyscalls then (s.table n).delPid pid else s.table n :=
  delPid_table K pid s.lockPidlist n

theorem inv_myExitGroup (pid : Int) (h : Inv K handlers s) :
    Inv K handlers (myExitGroup K pid s) where
  lists n := by
    rw [myExitGroup_table]
    split
    · exact (h.lists n).delPid pid
    · exact h.lists n
  hooks n := by
    rw [myExitGroup_table, myExitGroup_sysCallTable]
    split
    · exact (h.hooks n).delPid pid (h.lists n).nodup
    · exact h.hooks n
  outside n hn := by
    rw [myExitGroup_table]
    split
    · rw [Mytable.delPid_intercepted pid (h.lists n).nodup]
      exact h.outside n hn
    · exact h.outside n hn
  origs := (delPid_origs K pid s.lockPidlist).trans h.origs

/-- A call that finds `interceptor` in its slot is marked as intercepted already. -/
theorem Inv.interceptor_entry {n : ℕ} (h : Inv K handlers s)
    (hslot : s.sysCallTable n = some .interceptor) : (s.table n).intercepted = 1 := by
  rcases h.hooks n with ⟨_, hh⟩ | ⟨hi, _⟩
  · exact absurd (hh.symm.trans hslot) (loadedSlot_ne_interceptor K handlers n)
  · exact hi

/-- The body of `interceptor` changes nothing. -/
theorem Inv.interceptor_eq {n : ℕ} (h : Inv K handlers s) (pid : Int)
    (hslot : s.sysCallTable n = some .interceptor) : (interceptor pid n s).2.2 = s := by
  have he : ({ s.table n with intercepted := 1 } : Mytable κ) = s.table n := by
    rw [← h.interceptor_entry hslot]
  show s.setEntry n { s.table n with intercepted := 1 } = s
  rw [he]
  unfold State.setEntry
  rw [Function.update_eq_self]

theorem inv_step (h : Inv K handlers s) (e : Event) : Inv K handlers (step K s e) := by
  cases e with
  | request c kmalloc cmd syscall pid => exact inv_mySyscall c kmalloc cmd syscall pid h
  | exitGroup pid => exact inv_myExitGroup pid h
  | call pid n =>
    simp only [step]
    split
    · rename_i hslot
      rw [h.interceptor_eq pid hslot]
      exact h
    · exact h

/-- **The invariant holds in every state of the loaded module.** -/
theorem Reachable.inv (hr : Reachable K handlers s) : Inv K handlers s := by
  refine Lts.Reachable.invariant (inv_loaded K handlers) ?_ hr
  intro s e t h hst
  rw [← Lts.ofFun_iff.1 hst]
  exact inv_step h e

/-- The state after the events of a list. -/
abbrev run (K : Kernel) (handlers : ℕ → κ) (es : List Event) : State κ :=
  es.foldl (step K) (loaded K handlers)

theorem run_reachable (es : List Event) : Reachable K handlers (run K handlers es) :=
  Lts.reachable_foldl (step K) (loaded K handlers) es

end Cscc69.Interceptor
