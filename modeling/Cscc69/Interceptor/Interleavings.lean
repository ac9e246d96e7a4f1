import Cscc69.Interceptor.Dispatch
import Cscc69.Interceptor.Locking
import Cscc69.Lib.Interference

/-!
# What no interleaving breaks

The executions of `my_syscall`, `my_exit_group` and `exit_function`, interleaved at their lock
operations in any order. `START` and `STOP` give `pidlist_lock` up between the check of a pid and
the change of its list, and another process may exit meanwhile. But whoever puts a pid in a list
holds `calltable_lock` from the check on. So the lists stay without duplicates and counted in
every interleaving (`interleaved_lists`).

`INTERCEPT` and `RELEASE` look at the flag before they take `calltable_lock`. For a RELEASE this
does no harm: what is saved stays saved. But when two INTERCEPTs of one number pass the check
together, the second one saves `interceptor` itself, and no call of the number ever returns
(`Looped.dispatch_eq_none`). Nothing else can go wrong: a number stays properly hooked all along
an interleaving exactly if no INTERCEPT of it is granted the lock when it is intercepted already
(`interleaved_hooks`).

Both are one proof: the programs meet an invariant (`Kept`) and a guarantee (`Spares`), in the
sense of rely and guarantee, where `W` is the set of the numbers whose hooks are watched.
-/

namespace Cscc69.Interceptor

open Spinlocks

variable {κ : Type*} {K : Kernel} {handlers : ℕ → κ} {W : Set ℕ} {s s' t : State κ} {n : ℕ}
  {pid : Int} {H : Lock → Prop} {e' : Mytable κ} {h' : Option (Handler κ)}

/-! ## Invariant and guarantee -/

/-- All lists are in order, and the numbers of `W` are hooked properly or not at all. -/
structure Kept (K : Kernel) (handlers : ℕ → κ) (W : Set ℕ) (s : State κ) : Prop where
  lists : ∀ n, ListOk (s.table n)
  hooks : ∀ n ∈ W, Hooked (loadedSlot K handlers n) (s.table n) (s.sysCallTable n)

/-- What an execution does under the locks `H`: without `calltable_lock` it only takes pids out of
lists, and a handler that is saved stays so. -/
structure Spares (K : Kernel) (handlers : ℕ → κ) (W : Set ℕ) (H : Lock → Prop) (s s' : State κ) :
    Prop where
  pids : ¬ H .calltable → ∀ n, (s'.table n).myList ⊆ (s.table n).myList
  saved : ∀ n ∈ W, (s.table n).f = loadedSlot K handlers n →
    (s'.table n).f = loadedSlot K handlers n

theorem Spares.refl (H : Lock → Prop) (s : State κ) : Spares K handlers W H s s :=
  ⟨fun _ _ => List.Subset.refl _, fun _ _ => id⟩

def sparing (K : Kernel) (handlers : ℕ → κ) (W : Set ℕ) : Guarantee Lock (State κ) :=
  ⟨Spares K handlers W, Spares.refl⟩

/-- A change of entry and slot `n`. -/
theorem Kept.update (h : Kept K handlers W s) (ht : s'.table = Function.update s.table n e')
    (hs : s'.sysCallTable = Function.update s.sysCallTable n h') (hl : ListOk e')
    (hh : n ∈ W → Hooked (loadedSlot K handlers n) e' h') : Kept K handlers W s' := by
  constructor
  · intro m
    rw [ht]
    by_cases hm : m = n
    · subst hm
      rw [Function.update_self]
      exact hl
    · rw [Function.update_of_ne hm]
      exact h.lists m
  · intro m hmW
    rw [ht, hs]
    by_cases hm : m = n
    · subst hm
      rw [Function.update_self, Function.update_self]
      exact hh hmW
    · rw [Function.update_of_ne hm, Function.update_of_ne hm]
      exact h.hooks m hmW

theorem Spares.update (ht : s'.table = Function.update s.table n e')
    (hsub : ¬ H .calltable → e'.myList ⊆ (s.table n).myList)
    (hf : n ∈ W → (s.table n).f = loadedSlot K handlers n → e'.f = loadedSlot K handlers n) :
    Spares K handlers W H s s' := by
  constructor
  · intro hH m
    rw [ht]
    by_cases hm : m = n
    · subst hm
      rw [Function.update_self]
      exact hsub hH
    · rw [Function.update_of_ne hm]
      exact List.Subset.refl _
  · intro m hmW hsaved
    rw [ht]
    by_cases hm : m = n
    · subst hm
      rw [Function.update_self]
      exact hf hmW hsaved
    · rw [Function.update_of_ne hm]
      exact hsaved

/-- Invariant and guarantee of a segment. -/
abbrev Segment (K : Kernel) (handlers : ℕ → κ) (W : Set ℕ) (H : Lock → Prop) (s s' : State κ) :
    Prop :=
  Kept K handlers W s' ∧ Spares K handlers W H s s'

theorem Segment.refl (h : Kept K handlers W s) : Segment K handlers W H s s := ⟨h, .refl H s⟩

/-- A change of an entry that leaves the handlers alone. -/
theorem Segment.setEntry (h : Kept K handlers W s) (hl : ListOk e')
    (hf : e'.f = (s.table n).f) (hi : e'.intercepted = (s.table n).intercepted)
    (hsub : ¬ H .calltable → e'.myList ⊆ (s.table n).myList) :
    Segment K handlers W H s (s.setEntry n e') := by
  have hslot : (s.setEntry n e').sysCallTable =
      Function.update s.sysCallTable n (s.sysCallTable n) := (Function.update_eq_self ..).symm
  refine ⟨h.update rfl hslot hl fun hn => (h.hooks n hn).of_eq hf hi, .update rfl hsub ?_⟩
  intro _ hsaved
  exact hf.trans hsaved

/-! ## Segments -/

theorem segment_intercept (h : Kept K handlers W s) (hH : H .calltable)
    (hfree : n ∈ W → (s.table n).intercepted ≠ 1) :
    Segment K handlers W H s
      ((s.setEntry n { s.table n with f := s.sysCallTable n, intercepted := 1 }).setSlot n
        (some .interceptor)) := by
  have horig : n ∈ W → s.sysCallTable n = loadedSlot K handlers n := by
    intro hn
    obtain ⟨-, hslot⟩ | ⟨hi, -⟩ := h.hooks n hn
    · exact hslot
    · exact absurd hi (hfree hn)
  refine ⟨h.update rfl rfl ((h.lists n).of_eq rfl rfl) ?_, .update rfl (absurd hH) ?_⟩
  · exact fun hn => .inr ⟨rfl, rfl, horig hn⟩
  · exact fun hn _ => horig hn

theorem segment_release (h : Kept K handlers W s)
    (hsaved : n ∈ W → (s.table n).f = loadedSlot K handlers n) :
    Segment K handlers W H s
      ((s.setSlot n (s.table n).f).setEntry n { s.table n with intercepted := 0 }) := by
  refine ⟨h.update rfl rfl ((h.lists n).of_eq rfl rfl) ?_, .update rfl ?_ fun _ => id⟩
  · exact fun hn => .inl ⟨rfl, hsaved hn⟩
  · exact fun _ => List.Subset.refl _

theorem segment_flag (h : Kept K handlers W s) (monitored : Int) :
    Segment K handlers W H s (s.setEntry n { s.table n with monitored := monitored }) :=
  .setEntry h ((h.lists n).of_eq rfl rfl) rfl rfl fun _ => List.Subset.refl _

theorem segment_addPidSysc (h : Kept K handlers W s) (hH : H .calltable) (hpid : 0 < pid)
    (hmem : pid ∉ (s.table n).myList) (kmalloc : Bool) :
    Segment K handlers W H s (addPidSysc kmalloc pid n s).2 := by
  unfold addPidSysc
  cases kmalloc with
  | false => exact .refl h
  | true =>
    refine .setEntry h ⟨?_, ?_, ?_⟩ rfl rfl (absurd hH)
    · exact List.nodup_cons.2 ⟨hmem, (h.lists n).nodup⟩
    · exact List.forall_mem_cons.2 ⟨hpid, (h.lists n).pos⟩
    · simp [(h.lists n).count]

theorem segment_delPidSysc (h : Kept K handlers W s) (pid : Int) (n : ℕ) :
    Segment K handlers W H s (delPidSysc pid n s).2 := by
  unfold delPidSysc
  split
  · rename_i hmem
    refine .setEntry h ((h.lists n).unlink hmem) (Mytable.unlink_f pid _)
      (Mytable.unlink_intercepted pid _) fun _ => ?_
    rw [Mytable.unlink_myList]
    exact List.erase_subset
  · exact .refl h

theorem segment_destroyList (h : Kept K handlers W s) (n : ℕ) :
    Segment K handlers W H s (destroyList n s) :=
  .setEntry h ⟨List.nodup_nil, fun _ hp => absurd hp List.not_mem_nil, rfl⟩ rfl rfl
    fun _ => List.nil_subset _

/-- An exit takes a pid out of lists, whatever locks are held. -/
theorem segment_delPid (h : Kept K handlers W s) (pid : Int) :
    Segment K handlers W H s (delPid K pid s).2 := by
  refine ⟨⟨fun n => ?_, fun n hn => ?_⟩, ⟨fun _ n => ?_, fun n hn hsaved => ?_⟩⟩
  · rw [delPid_table]
    split
    · exact (h.lists n).delPid pid
    · exact h.lists n
  · rw [delPid_table, delPid_sysCallTable]
    split
    · exact (h.hooks n hn).delPid pid (h.lists n).nodup
    · exact h.hooks n hn
  · rw [delPid_table]
    split
    · rw [Mytable.delPid_of_nodup pid (h.lists n).nodup]
      split
      · rw [Mytable.unlink_myList]
        exact List.erase_subset
      · exact List.Subset.refl _
    · exact List.Subset.refl _
  · rw [delPid_table]
    split
    · rw [Mytable.delPid_f pid (h.lists n).nodup]
      exact hsaved
    · exact hsaved

/-! ## Programs -/

/-- An INTERCEPT that has passed the check of the flag. -/
def interceptTake (n : ℕ) : LockProg κ Int := do
  .take .calltable
  .modify fun s => s.setEntry n { s.table n with f := s.sysCallTable n, intercepted := 1 }
  .modify fun s => s.setSlot n (some .interceptor)
  .release .calltable
  return 0

theorem interceptProg_eq (n : ℕ) : (interceptProg n : LockProg κ Int) =
    .act id fun s => if (s.table n).intercepted = 1 then .pure (-ebusy) else interceptTake n := by
  unfold interceptProg
  simp only [Prog.bind_eq, Prog.read, Prog.bind, Prog.pure_eq]
  congr 1

/-- The condition that the programs rely on: an INTERCEPT of a number of `W` is granted
`calltable_lock` only if the number is not intercepted yet. -/
def Relied (W : Set ℕ) (F : LockProg κ Int → State κ → Prop) : Prop :=
  ∀ n ∈ W, ∀ s, F (interceptTake n) s → (s.table n).intercepted ≠ 1

variable {F : LockProg κ Int → State κ → Prop} {A : State κ → State κ → Prop}

/-- Nothing has been done of a segment. -/
theorem segment_none (hA : ∀ s₀ s, A s₀ s → s = s₀) (s₀ s : State κ) (h : Kept K handlers W s₀)
    (hs : A s₀ s) : Segment K handlers W H s₀ s := by
  rw [hA s₀ s hs]
  exact .refl h

/-- A lock operation at which nothing has to be remembered. -/
theorem segment_forget {C : State κ → State κ → Prop}
    (hC : ∀ s₀ s, Kept K handlers W s₀ → C s₀ s → Segment K handlers W H s₀ s) (s₀ s : State κ)
    (h : Kept K handlers W s₀) (hs : C s₀ s) : Segment K handlers W H s₀ s ∧ True :=
  ⟨hC s₀ s h hs, trivial⟩

theorem interceptTake_meets (hF : Relied W F) (n : ℕ) :
    spinning.Meets (Kept K handlers W) (sparing K handlers W) F (· = .idle) .idle
      (fun s₀ s => s = s₀) (interceptTake n) := by
  refine ⟨_, segment_forget (segment_none fun _ _ hA => hA), stable_true _,
    .inr ⟨_, .table, fun s₁ s₂ => ?_⟩⟩
  refine ⟨_, segment_forget ?_, stable_true _, _, .table,
    segment_none fun _ _ hA => hA.1, rfl⟩
  rintro s₀ _ h ⟨⟨⟨rfl, -, hgranted⟩, rfl⟩, rfl⟩
  exact segment_intercept h rfl fun hn => hF n hn _ hgranted

theorem interceptProg_meets (hF : Relied W F) (n : ℕ) :
    spinning.Meets (Kept K handlers W) (sparing K handlers W) F (· = .idle) .idle
      (fun s₀ s => s = s₀) (interceptProg n) := by
  rw [interceptProg_eq]
  intro s₁
  dsimp only
  split
  · exact ⟨segment_none fun _ _ hA => hA.2.trans hA.1, rfl⟩
  · exact (interceptTake_meets hF n).mono fun _ _ _ hA => hA.2.trans hA.1

theorem releaseProg_meets (n : ℕ) :
    spinning.Meets (Kept K handlers W) (sparing K handlers W) F (· = .idle) .idle
      (fun s₀ s => s = s₀) (releaseProg n) := by
  intro s₁
  simp only [Prog.bind]
  split
  · exact ⟨segment_none fun _ _ hA => hA.2.trans hA.1, rfl⟩
  · rename_i hi
    -- what is saved for an intercepted number stays saved until the lock is granted
    refine ⟨fun s => n ∈ W → (s.table n).f = loadedSlot K handlers n, ?_, ?_,
      .inr ⟨_, .table, fun s₂ s₃ => ?_⟩⟩
    · rintro s₀ t h ⟨rfl, rfl⟩
      refine ⟨Segment.refl h, fun hn => ?_⟩
      obtain ⟨h0, -⟩ | ⟨-, -, hf⟩ := h.hooks n hn
      · exact absurd h0 hi
      · exact hf
    · intro H s s' _ _ hG hs hn
      exact hG.saved n hn (hs hn)
    · refine ⟨_, segment_forget ?_, stable_true _, _, .table,
        segment_none fun _ _ hA => hA.1, rfl⟩
      rintro s₀ _ h ⟨⟨⟨rfl, hsaved, -⟩, rfl⟩, rfl⟩
      exact segment_release h hsaved

/-- As long as `calltable_lock` is held, a pid that is not in a list does not get there. -/
theorem stable_notMem (hH : H .calltable) (n : ℕ) (pid : Int) :
    Stable (Kept K handlers W) (sparing K handlers W) H
      fun s => pid ∉ (s.table n).myList := by
  intro H' s s' hdisj _ hG hs hmem
  exact hs (hG.pids (hdisj _ hH) n hmem)

theorem startMonitoringProg_meets (hpid : 0 ≤ pid) (kmalloc : Bool) (n : ℕ) :
    spinning.Meets (Kept K handlers W) (sparing K handlers W) F (· = .idle) .idle
      (fun s₀ s => s = s₀) (startMonitoringProg kmalloc n pid) := by
  unfold startMonitoringProg
  split
  · rename_i hne
    have hpos : 0 < pid := by omega
    refine ⟨_, segment_forget (segment_none fun _ _ hA => hA), stable_true _,
      .inr ⟨_, .pids, _, segment_forget (segment_none fun _ _ hA => hA.1), stable_true _,
        .inr ⟨_, .both, fun s₁ => ?_⟩⟩⟩
    simp only [Prog.bind]
    split
    · exact ⟨_, segment_forget (segment_none fun _ _ hA => hA.2.trans hA.1.1), stable_true _, _,
        .both, _, segment_forget (segment_none fun _ _ hA => hA.1), stable_true _, _, .pids,
        segment_none fun _ _ hA => hA.1, rfl⟩
    · rename_i hmem
      rw [checkPidMonitored_eq_one] at hmem
      -- the check holds while `pidlist_lock` is given up: nobody else puts a pid in a list
      refine ⟨fun s => pid ∉ (s.table n).myList, ?_, stable_notMem trivial n pid, _, .retry,
        fun s₂ => ⟨fun s => pid ∉ (s.table n).myList, ?_,
          stable_notMem (H := spinning.holds .retry) rfl n pid,
          .inr ⟨_, .again, fun s₃ => ?_⟩⟩⟩
      · rintro s₀ t h ⟨⟨rfl, -⟩, rfl⟩
        exact ⟨Segment.refl h, hmem⟩
      · rintro s₀ t h ⟨⟨rfl, hnot, -⟩, rfl⟩
        dsimp only
        split
        · refine ⟨segment_flag h 1, ?_⟩
          rw [State.setEntry_table, Function.update_self]
          exact hnot
        · exact ⟨Segment.refl h, hnot⟩
      · refine ⟨_, segment_forget ?_, stable_true _, _, .start, _,
          segment_forget (segment_none fun _ _ hA => hA.1), stable_true _, _, .table,
          segment_none fun _ _ hA => hA.1, rfl⟩
        rintro s₀ t h ⟨⟨rfl, hnot, -⟩, rfl⟩
        exact segment_addPidSysc h trivial hpos hnot kmalloc
  · refine ⟨_, segment_forget (segment_none fun _ _ hA => hA), stable_true _,
      .inr ⟨_, .table, fun s₁ => ?_⟩⟩
    simp only [Prog.bind]
    split
    · exact ⟨_, segment_forget (segment_none fun _ _ hA => hA.2.trans hA.1.1), stable_true _, _,
        .table, segment_none fun _ _ hA => hA.1, rfl⟩
    · refine fun s₂ => ⟨_, segment_forget ?_, stable_true _, _, .table,
        segment_none fun _ _ hA => hA.1, rfl⟩
      rintro s₀ t h ⟨⟨⟨rfl, -⟩, rfl⟩, rfl⟩
      exact segment_flag h 2

theorem stopMonitoringProg_meets (n : ℕ) (pid : Int) :
    spinning.Meets (Kept K handlers W) (sparing K handlers W) F (· = .idle) .idle
      (fun s₀ s => s = s₀) (stopMonitoringProg n pid) := by
  refine ⟨_, segment_forget (segment_none fun _ _ hA => hA), stable_true _,
    .inr ⟨_, .table, fun s₁ => ?_⟩⟩
  simp only [Prog.bind]
  by_cases hi : (s₁.table n).intercepted = 0
  · rw [if_pos hi]
    exact ⟨_, segment_forget (segment_none fun _ _ hA => hA.2.trans hA.1.1), stable_true _, _,
      .table, segment_none fun _ _ hA => hA.1, rfl⟩
  rw [if_neg hi]
  refine ⟨_, segment_forget (segment_none fun _ _ hA => hA.2.trans hA.1.1), stable_true _, _,
    .table, ?_⟩
  by_cases hp : pid ≠ 0
  · simp only [if_pos hp]
    refine ⟨_, segment_forget (segment_none fun _ _ hA => hA.1), stable_true _,
      .inr ⟨_, .pids, _, segment_forget (segment_none fun _ _ hA => hA.1), stable_true _,
        .inr ⟨_, .both, fun s₂ => ?_⟩⟩⟩
    simp only [Prog.bind]
    split
    · exact ⟨_, segment_forget (segment_none fun _ _ hA => hA.2.trans hA.1.1), stable_true _, _,
        .both, _, segment_forget (segment_none fun _ _ hA => hA.1), stable_true _, _, .pids,
        segment_none fun _ _ hA => hA.1, rfl⟩
    · refine ⟨_, segment_forget (segment_none fun _ _ hA => hA.2.trans hA.1.1), stable_true _, _,
        .retry, fun s₃ => ⟨_, segment_forget ?_, stable_true _, .inr ⟨_, .again, fun s₄ => ?_⟩⟩⟩
      · rintro s₀ t h ⟨⟨rfl, -⟩, rfl⟩
        dsimp only
        split
        · exact segment_flag h 1
        · exact segment_flag h 0
      · refine ⟨_, segment_forget ?_, stable_true _, _, .stop, _,
          segment_forget (segment_none fun _ _ hA => hA.1), stable_true _, _, .pids,
          segment_none fun _ _ hA => hA.1, rfl⟩
        rintro s₀ t h ⟨⟨rfl, -⟩, rfl⟩
        exact segment_delPidSysc h pid n
  · simp only [if_neg hp]
    refine ⟨_, segment_forget (segment_none fun _ _ hA => hA.1), stable_true _,
      .inr ⟨_, .table, fun s₂ => ?_⟩⟩
    simp only [Prog.bind]
    split
    · refine fun s₃ => ⟨_, segment_forget ?_, stable_true _, _, .table,
        segment_none fun _ _ hA => hA.1, rfl⟩
      rintro s₀ t h ⟨⟨⟨rfl, -⟩, rfl⟩, rfl⟩
      exact segment_destroyList h n
    · exact ⟨_, segment_forget (segment_none fun _ _ hA => hA.2.trans hA.1.1), stable_true _, _,
        .table, segment_none fun _ _ hA => hA.1, rfl⟩

theorem mySyscallProg_meets (hF : Relied W F) (c : Caller) (kmalloc : Bool)
    (cmd syscall pid : Int) :
    spinning.Meets (Kept K handlers W) (sparing K handlers W) F (· = .idle) .idle
      (fun s₀ s => s = s₀) (mySyscallProg K c kmalloc cmd syscall pid) := by
  unfold mySyscallProg
  cases herr : requestError K c cmd syscall pid with
  | some err => exact ⟨segment_none fun _ _ hA => hA, rfl⟩
  | none =>
    dsimp only
    split
    · exact interceptProg_meets hF _
    split
    · exact releaseProg_meets _
    split
    · rename_i hcmd
      refine startMonitoringProg_meets ?_ kmalloc _
      obtain ⟨-, hname | ⟨hzero, -⟩⟩ := (requestError_monitor (.inl hcmd)).1 herr
      · exact hname.1.le
      · exact hzero.ge
    · exact stopMonitoringProg_meets _ pid

variable {F : LockProg κ Unit → State κ → Prop}

theorem myExitGroupProg_meets (pid : Int) :
    spinning.MeetsFrom (Kept K handlers W) (sparing K handlers W) F .idle (fun _ => True)
      (myExitGroupProg K pid) := by
  refine ⟨_, segment_forget (segment_none fun _ _ hA => hA.1), stable_true _,
    .inr ⟨_, .pids, fun s₁ => ?_⟩⟩
  refine ⟨_, segment_forget ?_, stable_true _, _, .pids, segment_none fun _ _ hA => hA.1,
    fun _ => id⟩
  rintro s₀ t h ⟨⟨rfl, -⟩, rfl⟩
  exact segment_delPid h pid

/-! ### Unloading -/

/-- Reading does not change a segment. -/
theorem segment_read {s₀ s t : State κ} (h : Segment K handlers W H s₀ s ∧ t = id s) :
    Segment K handlers W H s₀ t := by
  rw [h.2]
  exact h.1

/-- A slot outside of `W` may be put back. -/
theorem Segment.setSlot {s₀ : State κ} (h : Segment K handlers W H s₀ s) (hn : n ∉ W)
    (f : Option (Handler κ)) : Segment K handlers W H s₀ (s.setSlot n f) := by
  refine ⟨⟨h.1.lists, fun m hm => ?_⟩, h.2.pids, h.2.saved⟩
  have hne : m ≠ n := fun heq => hn (heq ▸ hm)
  rw [State.setSlot_sysCallTable, Function.update_of_ne hne]
  exact h.1.hooks m hm

/-- Under `calltable_lock`, the program of a RELEASE changes nothing: it is refused, or it asks for
the lock that is held. -/
theorem mySyscallProg_release_meets {F : LockProg κ Int → State κ → Prop} (c : Caller)
    (index : ℕ) :
    spinning.Meets (Kept K handlers W) (sparing K handlers W) F (· = .releasing) .releasing
      (Segment K handlers W (spinning.holds .releasing))
      (mySyscallProg K c true requestSyscallRelease index index) := by
  unfold mySyscallProg
  cases requestError K c requestSyscallRelease index index with
  | some err => exact ⟨fun _ _ _ hA => hA, rfl⟩
  | none =>
    intro s₁
    simp only [Prog.bind]
    split
    · exact ⟨fun _ _ _ hA => segment_read hA, rfl⟩
    · exact ⟨_, segment_forget fun _ _ _ hA => segment_read hA, stable_true _, .inl ⟨rfl, rfl⟩⟩

theorem releaseLoop_meets (c : Caller) (l : List ℕ) :
    spinning.Meets (Kept K handlers W) (sparing K handlers W) F (· = .releasing) .releasing
      (Segment K handlers W (spinning.holds .releasing)) (releaseLoop K c l) := by
  induction l generalizing F with
  | nil => exact ⟨fun _ _ _ hA => hA, rfl⟩
  | cons index rest ih =>
    intro s₁
    simp only [Prog.bind]
    split
    · refine Protocol.Meets.mono (Protocol.Meets.bind (mySyscallProg_release_meets c index)
        fun ψ _ hψ => ?_) fun _ _ _ hA => segment_read hA
      rw [hψ]
      exact ih
    · exact ih.mono fun _ _ _ hA => segment_read hA

theorem exitFunctionProg_meets (h0 : myCustomSyscall ∉ W) (hexit : K.nrExitGroup ∉ W)
    (c : Caller) :
    spinning.MeetsFrom (Kept K handlers W) (sparing K handlers W) F .unloading (fun _ => True)
      (exitFunctionProg K c) := by
  rw [exitFunctionProg_eq]
  refine ⟨_, segment_forget (segment_none fun _ _ hA => hA.1), stable_true _,
    .inr ⟨_, .unload, ?_⟩⟩
  let F' : LockProg κ Unit → State κ → Prop := fun q =>
    F (q.bind fun _ => .act (fun s => s.setSlot myCustomSyscall s.origCustomSyscall)
      fun _ => .act (fun s => s.setSlot K.nrExitGroup s.origExitGroup) fun _ =>
        .unlock .calltable (.pure ()))
  have hloop : spinning.Meets (Kept K handlers W) (sparing K handlers W) F' (· = .releasing)
      .releasing (Segment K handlers W (spinning.holds .releasing))
      (releaseLoop K c (List.range K.nrSyscalls)) := releaseLoop_meets c _
  refine (hloop.mono ?_).bind fun ψ _ hψ => ?_
  · rintro s₀ t h ⟨rfl, -⟩
    exact .refl h
  rw [hψ]
  refine fun s₁ s₂ => ⟨_, segment_forget ?_, stable_true _, _, .unload,
    segment_none fun _ _ hA => hA.1, fun _ => id⟩
  rintro s₀ t h ⟨⟨hA, rfl⟩, rfl⟩
  have hcustom : Segment K handlers W _ s₀ (s₁.setSlot myCustomSyscall s₁.origCustomSyscall) :=
    Segment.setSlot hA h0 _
  exact hcustom.setSlot hexit _

/-! ## All along an interleaving -/

abbrev LockEvent (κ : Type*) := Spinlocks.Event (Option ℕ) Lock (State κ)

abbrev LockRun (K : Kernel) (handlers : ℕ → κ)
    (p : List (Lts.Transition (LockConfig κ) (LockEvent κ))) (cf : LockConfig κ) : Prop :=
  Lts.Run (Step (Starts K)) (.initial (loaded K handlers)) p cf

theorem kept_loaded (K : Kernel) (handlers : ℕ → κ) (W : Set ℕ) :
    Kept K handlers W (loaded K handlers) :=
  ⟨(inv_loaded K handlers).lists, fun n _ => (inv_loaded K handlers).hooks n⟩

theorem Starts.meets (hF : Relied W fun q => F (q.bind fun _ => .pure ()))
    (h0 : myCustomSyscall ∉ W) (hexit : K.nrExitGroup ∉ W) {i : Option ℕ} {p : LockProg κ Unit}
    (h : Starts K i p) :
    spinning.MeetsFrom (Kept K handlers W) (sparing K handlers W) F (startPhase i)
      (fun _ => True) p := by
  cases h with
  | request i c kmalloc cmd syscall pid =>
    refine Protocol.Meets.bind ((mySyscallProg_meets hF c kmalloc cmd syscall pid).mono
      fun _ _ _ hA => hA.1) fun ψ _ hψ => ⟨fun _ _ _ hA => hA, ?_⟩
    rw [hψ]
    exact fun _ => id
  | exitGroup i pid => exact myExitGroupProg_meets pid
  | unload c => exact exitFunctionProg_meets h0 hexit c

theorem guarded_loaded (hF : Relied W fun q => F (q.bind fun _ => .pure ()))
    (h0 : myCustomSyscall ∉ W) (hexit : K.nrExitGroup ∉ W) :
    Guarded spinning (Kept K handlers W) (sparing K handlers W) F (Starts K)
      (.initial (loaded K handlers) : LockConfig κ) startPhase := by
  refine .initial (kept_loaded K handlers W) (fun i l => ?_) fun i p h => h.meets hF h0 hexit
  cases i <;> exact not_false

variable {cf : LockConfig κ} {p : List (Lts.Transition (LockConfig κ) (LockEvent κ))}

/-- **No interleaving breaks a list.** Whatever requests, exits and unloading are interleaved, no
list has a pid twice, all pids are positive, and `listcount` counts them. -/
theorem interleaved_lists (hrun : LockRun K handlers p cf) (n : ℕ) :
    ListOk (cf.shared.table n) := by
  have hstart : Guarded spinning (Kept K handlers ∅) (sparing K handlers ∅) (fun _ _ => True)
      (Starts K) (.initial (loaded K handlers) : LockConfig κ) startPhase :=
    guarded_loaded (fun _ hn => absurd hn (Set.notMem_empty _)) (Set.notMem_empty _)
      (Set.notMem_empty _)
  have hgranted : ∀ t ∈ p, t.event.Granted (fun _ _ => True) t.before := by
    intro t _
    cases t.event with
    | start i q => exact trivial
    | run i => exact fun _ _ => trivial
  obtain ⟨φ, h⟩ := hstart.run hrun hgranted
  exact h.inv.lists n

/-- Root's START for pid 8 and the exit of pid 8, with the exit between the check and the change of
the list. -/
theorem interleaved_lists_exit : ∃ p cf, LockRun i386 id p cf ∧ p.length = 8 ∧
    ListOk (cf.shared.table 5) := by
  have h₀ := Lts.Run.nil.snoc (Step.start (c := .initial (loaded i386 id)) (i := some 0) rfl
    (exStartProg_starts 0 8))
  have h₁ := h₀.snoc (Step.start (i := some 1) rfl (Starts.exitGroup 1 8))
  have h₂ := h₁.snoc (Step.lock (i := some 0) rfl rfl)
  have h₃ := h₂.snoc (Step.lock (i := some 0) rfl rfl)
  have h₄ := h₃.snoc (Step.unlock (i := some 0) rfl)
  have h₅ := h₄.snoc (Step.lock (i := some 1) rfl rfl)
  have h₆ := h₅.snoc (Step.unlock (i := some 1) rfl)
  have h₇ := h₆.snoc (Step.lock (i := some 0) rfl rfl)
  exact ⟨_, _, h₇, rfl, interleaved_lists h₇ 5⟩

/-! ## Overlapping INTERCEPTs -/

/-- An INTERCEPT of `n` that has passed the check of the flag is granted `calltable_lock` when `n`
is intercepted. -/
def Overlaps (n : ℕ) (cf : LockConfig κ) : LockEvent κ → Prop
  | .start _ _ => False
  | .run i => cf.prog i = some ((interceptTake n).bind fun _ => .pure ()) ∧
      (cf.shared.table n).intercepted = 1

/-- The slot of `n` is in order: it holds the handler of the loaded module, or `interceptor` with
this handler saved. -/
def HooksOk (K : Kernel) (handlers : ℕ → κ) (n : ℕ) (cf : LockConfig κ) : Prop :=
  Hooked (loadedSlot K handlers n) (cf.shared.table n) (cf.shared.sysCallTable n)

/-- What is saved for `n` is `interceptor` itself. -/
structure Looped (n : ℕ) (s : State κ) : Prop where
  saved : (s.table n).f = some .interceptor
  slot : s.sysCallTable n = some .interceptor

/-- Such a call runs `interceptor` for ever. -/
theorem Looped.dispatch_eq_none (h : Looped n s) {d : Syscall} (hd : d.ax = n) (fuel : ℕ) :
    dispatch K fuel d s = none := by
  have key : ∀ (fuel : ℕ) (s : State κ), (s.table n).f = some .interceptor →
      invoke K d fuel (some .interceptor) s = none := by
    intro fuel
    induction fuel with
    | zero => exact fun _ _ => rfl
    | succ fuel ih =>
      intro s hf
      have hbody : ((interceptor d.caller.pid d.ax s).2.2.table n).f = some .interceptor := by
        rw [hd]
        show (Function.update s.table n _ n).f = _
        rw [Function.update_self]
        exact hf
      have hnext : (interceptor d.caller.pid d.ax s).2.1 = some .interceptor := by
        rw [hd]
        exact hf
      rw [invoke, hnext, ih _ hbody]
      rfl
  rw [dispatch, hd, h.slot]
  exact key fuel s h.saved

variable {cf' : LockConfig κ} {e : LockEvent κ}

theorem Overlaps.looped (ho : Overlaps n cf e) (hok : HooksOk K handlers n cf)
    (hst : Step (Starts K) cf e cf') : Looped n cf'.shared := by
  have hslot : cf.shared.sysCallTable n = some .interceptor := by
    cases e with
    | start i p => exact ho.elim
    | run i =>
      obtain ⟨hi, -⟩ | ⟨-, hslot, -⟩ := hok
      · rw [ho.2] at hi
        exact absurd hi (by decide)
      · exact hslot
  cases hst with
  | start _ _ => exact ho.elim
  | @lock i l k hprog hfree =>
    obtain ⟨rfl, rfl⟩ := Prog.lock.inj (Option.some.inj (hprog.symm.trans ho.1))
    constructor
    · show (Function.update cf.shared.table n _ n).f = _
      rw [Function.update_self]
      exact hslot
    · show Function.update _ n _ n = _
      rw [Function.update_self]
  | @unlock i l k hprog => cases hprog.symm.trans ho.1

theorem Looped.not_hooksOk (h : Looped n cf.shared) : ¬ HooksOk K handlers n cf := by
  have hne := loadedSlot_ne_interceptor K handlers n
  intro hok
  obtain ⟨-, hslot⟩ | ⟨-, -, hf⟩ := hok
  · exact hne (hslot.symm.trans h.slot)
  · exact hne (hf.symm.trans h.saved)

/-- Without overlaps the hooks stay in order. -/
theorem hooksOk_of_not_overlaps (h0 : n ≠ myCustomSyscall) (hexit : n ≠ K.nrExitGroup)
    (hrun : LockRun K handlers p cf) (hp : ∀ t ∈ p, ¬ Overlaps n t.before t.event) :
    HooksOk K handlers n cf := by
  let F : LockProg κ Unit → State κ → Prop := fun q s =>
    q = (interceptTake n).bind (fun _ => .pure ()) → (s.table n).intercepted ≠ 1
  have hF : Relied {n} fun q => F (q.bind fun _ => .pure ()) := by
    rintro m rfl s hm
    exact hm rfl
  have hstart : Guarded spinning (Kept K handlers {n}) (sparing K handlers {n}) F (Starts K)
      (.initial (loaded K handlers) : LockConfig κ) startPhase :=
    guarded_loaded hF (Ne.symm h0) (Ne.symm hexit)
  have hgranted : ∀ t ∈ p, t.event.Granted F t.before := by
    intro t ht
    have hnot := hp t ht
    cases hevent : t.event with
    | start i q => exact trivial
    | run i =>
      rw [hevent] at hnot
      rintro q hq rfl hi
      exact hnot ⟨hq, hi⟩
  obtain ⟨φ, h⟩ := hstart.run hrun hgranted
  exact h.inv.hooks n rfl

/-- **Hooks under interleaving.** A number other than the two that the module hijacks stays
properly hooked all along exactly if no INTERCEPT of it is granted `calltable_lock` when it is
intercepted already. Right after such a grant, no call of the number returns. -/
theorem interleaved_hooks (h0 : n ≠ myCustomSyscall) (hexit : n ≠ K.nrExitGroup)
    (hrun : LockRun K handlers p cf) :
    (((∀ t ∈ p, HooksOk K handlers n t.before) ∧ HooksOk K handlers n cf) ↔
      ∀ t ∈ p, ¬ Overlaps n t.before t.event) ∧
    ∀ t ∈ p, HooksOk K handlers n t.before → Overlaps n t.before t.event →
      ∀ fuel d, d.ax = n → dispatch K fuel d t.after.shared = none := by
  constructor
  · constructor
    · intro hall
      induction hrun with
      | nil => exact fun t ht => absurd ht List.not_mem_nil
      | @snoc p cf cf' e hrun hst ih =>
        obtain ⟨hbefore, hok'⟩ := hall
        rw [List.forall_mem_cons] at hbefore ⊢
        refine ⟨fun ho => ?_, ih ⟨hbefore.2, hbefore.1⟩⟩
        exact (ho.looped hbefore.1 hst).not_hooksOk hok'
    · intro hp
      refine ⟨fun t ht => ?_, hooksOk_of_not_overlaps h0 hexit hrun hp⟩
      obtain ⟨later, earlier, rfl⟩ := List.append_of_mem ht
      refine hooksOk_of_not_overlaps h0 hexit hrun.split.1 fun t' ht' => hp t' ?_
      exact List.mem_append_right _ (List.mem_cons_of_mem _ ht')
  · intro t ht hok ho fuel d hd
    obtain ⟨later, earlier, rfl⟩ := List.append_of_mem ht
    exact (ho.looped hok hrun.split.2).dispatch_eq_none hd fuel

/-- Root's INTERCEPT of syscall 5. -/
def exInterceptProg : LockProg ℕ Unit :=
  (mySyscallProg i386 exRoot true requestSyscallIntercept 5 0).bind fun _ => .pure ()

theorem exInterceptProg_starts (i : ℕ) : Starts i386 (some i) exInterceptProg :=
  .request i exRoot true requestSyscallIntercept 5 0

/-- Two INTERCEPTs pass the check before either of them takes the lock. -/
theorem interleaved_hooks_two : ∃ p cf, LockRun i386 id p cf ∧
    ¬ ((∀ t ∈ p, HooksOk i386 id 5 t.before) ∧ HooksOk i386 id 5 cf) := by
  have h₀ := Lts.Run.nil.snoc (Step.start (c := .initial (loaded i386 id)) (i := some 0) rfl
    (exInterceptProg_starts 0))
  have h₁ := h₀.snoc (Step.start (i := some 1) rfl (exInterceptProg_starts 1))
  have h₂ := h₁.snoc (Step.lock (i := some 0) rfl rfl)
  have h₃ := h₂.snoc (Step.unlock (i := some 0) rfl)
  have h₄ := h₃.snoc (Step.lock (i := some 1) rfl rfl)
  refine ⟨_, _, h₄, fun hall => ?_⟩
  exact (interleaved_hooks (by decide) (by decide) h₄).1.1 hall _ List.mem_cons_self ⟨rfl, rfl⟩

end Cscc69.Interceptor
