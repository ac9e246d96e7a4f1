import Cscc69.Interceptor.Refusals

/-!
# Calls in flight

An intercepted system call is two steps apart: the kernel reads `interceptor` from the slot, and
the body of `interceptor` runs later, after any requests and other calls. The body sets
`intercepted` to 1. When the number has been released meanwhile, the flag then says that it is
intercepted, and the next INTERCEPT is refused with -EBUSY.

The flag is 1 exactly for the slots that hold `interceptor`, all along a run, exactly if no body
runs after its number has been released (`inFlight_iff`). The handlers are never mixed up: a slot
holds `interceptor` or its own handler, and that is saved for every call in flight (`Settled`).
-/

namespace Cscc69.Interceptor

variable {κ : Type*} {K : Kernel} {handlers : ℕ → κ} {s : State κ} {c : Caller} {n : ℕ}
  {cmd pid r : Int} {e e' : Mytable κ} {h h' orig : Option (Handler κ)}

/-! ## The system -/

/-- The module, and the calls for which `interceptor` has been read from the slot and has not run
yet: who makes them, and their numbers. -/
structure Busy (κ : Type*) where
  state : State κ
  calls : List (Int × ℕ)

inductive CallEvent where
  /-- a request to `my_syscall` -/
  | request (c : Caller) (kmalloc : Bool) (cmd syscall pid : Int)
  /-- process `pid` calls `exit_group` -/
  | exitGroup (pid : Int)
  /-- process `pid` makes system call `n`, and the kernel reads the slot -/
  | dispatch (pid : Int) (n : ℕ)
  /-- the body of `interceptor` runs for the call at that place -/
  | body (i : ℕ)

def callStep (K : Kernel) (b : Busy κ) : CallEvent → Busy κ
  | .request c kmalloc cmd syscall pid =>
    { b with state := (mySyscall K c kmalloc cmd syscall pid b.state).2 }
  | .exitGroup pid => { b with state := myExitGroup K pid b.state }
  | .dispatch pid n =>
    match b.state.sysCallTable n with
    | some .interceptor => { b with calls := (pid, n) :: b.calls }
    | _ => b
  | .body i =>
    match b.calls[i]? with
    | some (pid, n) => ⟨(interceptor pid n b.state).2.2, b.calls.eraseIdx i⟩
    | none => b

/-- The loaded module, with no calls in flight. -/
def idle (K : Kernel) (handlers : ℕ → κ) : Busy κ := ⟨loaded K handlers, []⟩

abbrev CallRun (K : Kernel) (handlers : ℕ → κ)
    (p : List (Lts.Transition (Busy κ) CallEvent)) (b : Busy κ) : Prop :=
  Lts.Run (Lts.ofFun (callStep K)) (idle K handlers) p b

/-! ## What holds in every state -/

/-- Entry and slot of a system call whose handler is `orig`: the slot holds that or `interceptor`,
and it is saved when the call is marked as intercepted. -/
def Latched (orig : Option (Handler κ)) (e : Mytable κ) (h : Option (Handler κ)) : Prop :=
  h = orig ∧ (e.intercepted = 0 ∨ e.intercepted = 1 ∧ e.f = orig) ∨
    h = some .interceptor ∧ e.intercepted = 1 ∧ e.f = orig

/-- Only the slots that hold `interceptor` are marked. -/
def FlagAgrees (e : Mytable κ) (h : Option (Handler κ)) : Prop :=
  e.intercepted = 1 ↔ h = some .interceptor

theorem Latched.hooked_iff (hl : Latched orig e h) (horig : orig ≠ some .interceptor) :
    FlagAgrees e h ↔ Hooked orig e h := by
  unfold FlagAgrees Hooked
  rcases hl with ⟨rfl, hi | ⟨hi, hf⟩⟩ | ⟨rfl, hi, hf⟩
  · simp [hi, horig]
  · simp [hi, horig]
  · simp [hi, hf]

theorem Latched.of_eq (hl : Latched orig e h) (hf : e'.f = e.f)
    (hi : e'.intercepted = e.intercepted) : Latched orig e' h := by
  unfold Latched
  rw [hf, hi]
  exact hl

/-- A slot that holds `interceptor` has its handler saved. -/
theorem Latched.saved (hl : Latched orig e (some .interceptor)) (horig : orig ≠ some .interceptor) :
    e.f = orig := by
  rcases hl with ⟨heq, -⟩ | ⟨-, -, hf⟩
  · exact absurd heq.symm horig
  · exact hf

theorem Effect.latched (heff : Effect c cmd pid e h r e' h') (hl : Latched orig e h) :
    Latched orig e' h' := by
  cases heff with
  | refused _ => exact hl
  | intercepted _ _ hne =>
    rcases hl with ⟨rfl, -⟩ | ⟨-, hi, -⟩
    · exact .inr ⟨rfl, rfl, rfl⟩
    · exact absurd hi hne
  | released _ _ hne =>
    rcases hl with ⟨-, hi | ⟨-, hf⟩⟩ | ⟨-, -, hf⟩
    · exact absurd hi hne
    · exact .inl ⟨hf, .inl rfl⟩
    · exact .inl ⟨hf, .inl rfl⟩
  | started _ _ _ | outOfMemory _ _ _ | startedAll _ _ _ _ _ | stoppedAll _ _ _ _ _ =>
    exact hl.of_eq rfl rfl
  | stopped _ _ _ _ =>
    exact hl.of_eq (Mytable.unlink_f pid _) (Mytable.unlink_intercepted pid _)

/-- A saved handler stays saved. -/
theorem Effect.saved (heff : Effect c cmd pid e h r e' h') (hl : Latched orig e h)
    (hf : e.f = orig) : e'.f = orig := by
  cases heff with
  | intercepted _ _ hne =>
    rcases hl with ⟨rfl, -⟩ | ⟨-, hi, -⟩
    · rfl
    · exact absurd hi hne
  | stopped _ _ _ _ => exact (Mytable.unlink_f pid _).trans hf
  | refused _ | released _ _ _ | started _ _ _ | outOfMemory _ _ _ | startedAll _ _ _ _ _
  | stoppedAll _ _ _ _ _ => exact hf

structure Settled (K : Kernel) (handlers : ℕ → κ) (b : Busy κ) : Prop where
  lists : ∀ n, ListOk (b.state.table n)
  latched : ∀ n, Latched (loadedSlot K handlers n) (b.state.table n) (b.state.sysCallTable n)
  /-- Only the numbers that a request may name are ever intercepted. -/
  accepted : ∀ n, b.state.sysCallTable n = some .interceptor → 0 < n ∧ n ≤ K.nrSyscalls
  calls : ∀ call ∈ b.calls, (b.state.table call.2).f = loadedSlot K handlers call.2 ∧
    0 < call.2 ∧ call.2 ≤ K.nrSyscalls

theorem settled_idle (K : Kernel) (handlers : ℕ → κ) : Settled K handlers (idle K handlers) where
  lists n := (inv_loaded K handlers).lists n
  latched n := .inl ⟨rfl, .inl (by rw [idle, loaded_table]; rfl)⟩
  accepted n hn := absurd hn (loadedSlot_ne_interceptor K handlers n)
  calls _ hcall := by cases hcall

variable {b : Busy κ}

theorem Settled.request (hb : Settled K handlers b) (c : Caller) (kmalloc : Bool)
    (cmd syscall pid : Int) :
    Settled K handlers (callStep K b (.request c kmalloc cmd syscall pid)) := by
  rcases mySyscall_cases K c kmalloc cmd syscall pid b.state with
    ⟨-, heq⟩ | ⟨m, -, hpos, hle, -, e', h', ht, hs, heff⟩
  · simp only [callStep, heq]
    exact hb
  · simp only [callStep]
    have hcases : ∀ {P : ℕ → Mytable κ → Option (Handler κ) → Prop},
        P m e' h' → (∀ n, P n (b.state.table n) (b.state.sysCallTable n)) → ∀ n,
        P n (Function.update b.state.table m e' n)
          (Function.update b.state.sysCallTable m h' n) := by
      intro P hm hall n
      by_cases hn : n = m
      · subst hn
        rw [Function.update_self, Function.update_self]
        exact hm
      · rw [Function.update_of_ne hn, Function.update_of_ne hn]
        exact hall n
    constructor
    · rw [ht]
      exact hcases (P := fun _ e _ => ListOk e) (heff.listOk (hb.lists m)) hb.lists
    · rw [ht, hs]
      exact hcases (P := fun n e h => Latched (loadedSlot K handlers n) e h)
        (heff.latched (hb.latched m)) hb.latched
    · rw [hs]
      exact hcases (P := fun n _ h => h = some .interceptor → 0 < n ∧ n ≤ K.nrSyscalls)
        (fun _ => ⟨hpos, hle⟩) hb.accepted
    · intro call hcall
      obtain ⟨hf, hrange⟩ := hb.calls call hcall
      refine ⟨?_, hrange⟩
      rw [ht]
      by_cases hn : call.2 = m
      · rw [hn] at hf ⊢
        rw [Function.update_self]
        exact heff.saved (hb.latched m) hf
      · rw [Function.update_of_ne hn]
        exact hf

theorem Settled.exitGroup (hb : Settled K handlers b) (pid : Int) :
    Settled K handlers (callStep K b (.exitGroup pid)) := by
  have hf : ∀ n, ((myExitGroup K pid b.state).table n).f = (b.state.table n).f := by
    intro n
    rw [myExitGroup_table]
    split
    · exact Mytable.delPid_f pid (hb.lists n).nodup
    · rfl
  constructor
  · intro n
    simp only [callStep, myExitGroup_table]
    split
    · exact (hb.lists n).delPid pid
    · exact hb.lists n
  · intro n
    simp only [callStep, myExitGroup_sysCallTable]
    refine (hb.latched n).of_eq (hf n) ?_
    rw [myExitGroup_table]
    split
    · exact Mytable.delPid_intercepted pid (hb.lists n).nodup
    · rfl
  · simp only [callStep, myExitGroup_sysCallTable]
    exact hb.accepted
  · intro call hcall
    refine ⟨?_, (hb.calls call hcall).2⟩
    simp only [callStep, hf]
    exact (hb.calls call hcall).1

theorem Settled.dispatch (hb : Settled K handlers b) (pid : Int) (n : ℕ) :
    Settled K handlers (callStep K b (.dispatch pid n)) := by
  simp only [callStep]
  split
  · rename_i hslot
    refine ⟨hb.lists, hb.latched, hb.accepted, List.forall_mem_cons.2 ⟨?_, hb.calls⟩⟩
    have hl := hb.latched n
    rw [hslot] at hl
    exact ⟨hl.saved (loadedSlot_ne_interceptor K handlers n), hb.accepted n hslot⟩
  · exact hb

/-- The body of `interceptor` sets the flag. -/
theorem callStep_body {i : ℕ} {call : Int × ℕ} (hcall : b.calls[i]? = some call) :
    callStep K b (.body i) =
      ⟨b.state.setEntry call.2 { b.state.table call.2 with intercepted := 1 },
        b.calls.eraseIdx i⟩ := by
  simp only [callStep, hcall]
  rfl

theorem Settled.body (hb : Settled K handlers b) (i : ℕ) :
    Settled K handlers (callStep K b (.body i)) := by
  cases hcall : b.calls[i]? with
  | none =>
    simp only [callStep, hcall]
    exact hb
  | some call =>
    obtain ⟨hsaved, -⟩ := hb.calls call (List.mem_of_getElem? hcall)
    rw [callStep_body hcall]
    constructor
    · intro n
      by_cases hn : n = call.2
      · subst hn
        rw [State.setEntry_table, Function.update_self]
        exact (hb.lists call.2).of_eq rfl rfl
      · rw [State.setEntry_table, Function.update_of_ne hn]
        exact hb.lists n
    · intro n
      by_cases hn : n = call.2
      · subst hn
        rw [State.setEntry_table, Function.update_self]
        rcases hb.latched call.2 with ⟨hslot, -⟩ | ⟨hslot, -, -⟩
        · exact .inl ⟨hslot, .inr ⟨rfl, hsaved⟩⟩
        · exact .inr ⟨hslot, rfl, hsaved⟩
      · rw [State.setEntry_table, Function.update_of_ne hn]
        exact hb.latched n
    · exact hb.accepted
    · intro call' hcall'
      refine ⟨?_, (hb.calls call' (List.mem_of_mem_eraseIdx hcall')).2⟩
      have hf := (hb.calls call' (List.mem_of_mem_eraseIdx hcall')).1
      by_cases hn : call'.2 = call.2
      · rw [hn] at hf ⊢
        rw [State.setEntry_table, Function.update_self]
        exact hf
      · rw [State.setEntry_table, Function.update_of_ne hn]
        exact hf

theorem Settled.step (hb : Settled K handlers b) (e : CallEvent) :
    Settled K handlers (callStep K b e) := by
  cases e with
  | request c kmalloc cmd syscall pid => exact hb.request c kmalloc cmd syscall pid
  | exitGroup pid => exact hb.exitGroup pid
  | dispatch pid n => exact hb.dispatch pid n
  | body i => exact hb.body i

/-! ## The flag -/

/-- The flag says for every number whether it is intercepted. -/
def FlagsAgree (s : State κ) : Prop := ∀ n, FlagAgrees (s.table n) (s.sysCallTable n)

/-- The event is the body of a call whose number has been released since it was dispatched, and
has not been intercepted again. -/
def CallEvent.Late (b : Busy κ) : CallEvent → Prop
  | .body i => ∃ call, b.calls[i]? = some call ∧ b.state.sysCallTable call.2 ≠ some .interceptor
  | .request _ _ _ _ _ => False
  | .exitGroup _ => False
  | .dispatch _ _ => False

theorem Settled.hooked (hb : Settled K handlers b) (hf : FlagsAgree b.state) (n : ℕ) :
    Hooked (loadedSlot K handlers n) (b.state.table n) (b.state.sysCallTable n) :=
  ((hb.latched n).hooked_iff (loadedSlot_ne_interceptor K handlers n)).1 (hf n)

theorem flagsAgree_request (hb : Settled K handlers b) (hf : FlagsAgree b.state) (c : Caller)
    (kmalloc : Bool) (cmd syscall pid : Int) :
    FlagsAgree (mySyscall K c kmalloc cmd syscall pid b.state).2 := by
  intro n
  have hb' := (hb.request c kmalloc cmd syscall pid).latched n
  refine (hb'.hooked_iff (loadedSlot_ne_interceptor K handlers n)).2 ?_
  simp only [callStep]
  rcases mySyscall_cases K c kmalloc cmd syscall pid b.state with
    ⟨-, heq⟩ | ⟨m, -, -, -, -, e', h', ht, hs, heff⟩
  · rw [heq]
    exact hb.hooked hf n
  · rw [ht, hs]
    by_cases hn : n = m
    · subst hn
      rw [Function.update_self, Function.update_self]
      exact heff.hooked (hb.hooked hf n)
    · rw [Function.update_of_ne hn, Function.update_of_ne hn]
      exact hb.hooked hf n

theorem flagsAgree_exitGroup (hb : Settled K handlers b) (hf : FlagsAgree b.state) (pid : Int) :
    FlagsAgree (myExitGroup K pid b.state) := by
  intro n
  have hb' := (hb.exitGroup pid).latched n
  refine (hb'.hooked_iff (loadedSlot_ne_interceptor K handlers n)).2 ?_
  simp only [callStep, myExitGroup_table, myExitGroup_sysCallTable]
  split
  · exact (hb.hooked hf n).delPid pid (hb.lists n).nodup
  · exact hb.hooked hf n

/-- The body of a call keeps the flags right exactly if its slot still holds `interceptor`. -/
theorem flagsAgree_body {call : Int × ℕ} (hf : FlagsAgree b.state) :
    FlagsAgree (b.state.setEntry call.2 { b.state.table call.2 with intercepted := 1 }) ↔
      b.state.sysCallTable call.2 = some .interceptor := by
  constructor
  · intro hf'
    have hflag := hf' call.2
    rw [FlagAgrees, State.setEntry_table, Function.update_self] at hflag
    exact hflag.1 rfl
  · intro hslot n
    rw [FlagAgrees, State.setEntry_table]
    by_cases hn : n = call.2
    · subst hn
      rw [Function.update_self]
      exact iff_of_true rfl hslot
    · rw [Function.update_of_ne hn]
      exact hf n

/-- A step keeps the flags right unless it is a late body. -/
theorem callStep_flagsAgree_iff (hb : Settled K handlers b) (hf : FlagsAgree b.state)
    (e : CallEvent) : FlagsAgree (callStep K b e).state ↔ ¬ e.Late b := by
  cases e with
  | request c kmalloc cmd syscall pid =>
    exact iff_of_true (flagsAgree_request hb hf c kmalloc cmd syscall pid) not_false
  | exitGroup pid => exact iff_of_true (flagsAgree_exitGroup hb hf pid) not_false
  | dispatch pid n =>
    refine iff_of_true ?_ not_false
    simp only [callStep]
    split
    · exact hf
    · exact hf
  | body i =>
    cases hcall : b.calls[i]? with
    | none =>
      simp only [callStep, hcall, CallEvent.Late]
      exact iff_of_true hf (by simp)
    | some call =>
      rw [callStep_body hcall, flagsAgree_body hf]
      simp [CallEvent.Late, hcall]

/-! ## Releases -/

/-- The step is a successful request `cmd` for `n`. -/
def Granted (K : Kernel) (cmd : Int) (n : ℕ) (t : Lts.Transition (Busy κ) CallEvent) : Prop :=
  ∃ c kmalloc pid, t.event = .request c kmalloc cmd n pid ∧
    (mySyscall K c kmalloc cmd n pid t.before.state).1 = 0

/-- After a successful RELEASE of a number, with no successful INTERCEPT of it since, an INTERCEPT
is not refused with -EBUSY. -/
def ReleaseStands (K : Kernel) (p : List (Lts.Transition (Busy κ) CallEvent)) (b : Busy κ) :
    Prop :=
  ∀ later t earlier n, p = later ++ t :: earlier → Granted K requestSyscallRelease n t →
    (∀ t' ∈ later, ¬ Granted K requestSyscallIntercept n t') → ∀ c kmalloc pid,
    (mySyscall K c kmalloc requestSyscallIntercept n pid b.state).1 ≠ -ebusy

theorem requestError_ne_ebusy {syscall : Int} :
    requestError K c cmd syscall pid ≠ some (-ebusy) := by
  unfold requestError
  repeat' split
  all_goals decide

/-- Only the flag makes an INTERCEPT busy. -/
theorem intercept_ne_ebusy {s : State κ} (hflag : (s.table n).intercepted ≠ 1) (c : Caller)
    (kmalloc : Bool) (pid : Int) :
    (mySyscall K c kmalloc requestSyscallIntercept n pid s).1 ≠ -ebusy := by
  unfold mySyscall
  split
  · rename_i err herr
    intro heq
    exact requestError_ne_ebusy (herr.trans (congrArg some heq))
  · simp only [if_true, Int.toNat_natCast, intercept, if_neg hflag]
    decide

/-- A successful RELEASE takes `interceptor` out of the slot. -/
theorem Granted.released {t : Lts.Transition (Busy κ) CallEvent}
    (hb : Settled K handlers t.before) (ht : callStep K t.before t.event = t.after)
    (hrel : Granted K requestSyscallRelease n t) :
    t.after.state.sysCallTable n ≠ some .interceptor := by
  obtain ⟨c, kmalloc, pid, hevent, hret⟩ := hrel
  rw [← ht, hevent]
  simp only [callStep]
  rcases mySyscall_cases K c kmalloc requestSyscallRelease n pid t.before.state with
    ⟨hneg, -⟩ | ⟨m, hm, -, -, -, e', h', -, hs, heff⟩
  · rw [hret] at hneg
    exact absurd hneg (lt_irrefl 0)
  · obtain rfl : n = m := by exact_mod_cast hm
    rw [hs, Function.update_self]
    rw [hret] at heff
    have hne := loadedSlot_ne_interceptor K handlers n
    cases heff with
    | refused hneg => exact absurd hneg (lt_irrefl 0)
    | released _ _ hi =>
      rcases hb.latched n with ⟨-, hzero | ⟨-, hf⟩⟩ | ⟨-, -, hf⟩
      · exact absurd hzero hi
      · exact hf ▸ hne
      · exact hf ▸ hne
    | intercepted hcmd _ _ | started hcmd _ _ | startedAll hcmd _ _ _ _ | stopped hcmd _ _ _
    | stoppedAll hcmd _ _ _ _ => cases hcmd

/-- Only a successful INTERCEPT puts `interceptor` in a slot. -/
theorem callStep_slot {e : CallEvent} (hb : Settled K handlers b)
    (hslot : b.state.sysCallTable n ≠ some .interceptor)
    (hnot : ¬ Granted K requestSyscallIntercept n ⟨b, e, callStep K b e⟩) :
    (callStep K b e).state.sysCallTable n ≠ some .interceptor := by
  cases e with
  | request c kmalloc cmd syscall pid =>
    simp only [callStep]
    rcases mySyscall_cases K c kmalloc cmd syscall pid b.state with
      ⟨-, heq⟩ | ⟨m, rfl, -, -, -, e', h', -, hs, heff⟩
    · rw [heq]
      exact hslot
    · rw [hs]
      by_cases hn : n = m
      · subst hn
        rw [Function.update_self]
        generalize hr : (mySyscall K c kmalloc cmd n pid b.state).1 = r at heff
        cases heff with
        | intercepted hcmd _ _ =>
          subst hcmd
          exact absurd ⟨c, kmalloc, pid, rfl, hr⟩ hnot
        | released _ _ hi =>
          have hne := loadedSlot_ne_interceptor K handlers n
          rcases hb.latched n with ⟨-, hzero | ⟨-, hf⟩⟩ | ⟨-, -, hf⟩
          · exact absurd hzero hi
          · exact hf ▸ hne
          · exact hf ▸ hne
        | refused _ | started _ _ _ | outOfMemory _ _ _ | startedAll _ _ _ _ _ | stopped _ _ _ _
        | stoppedAll _ _ _ _ _ => exact hslot
      · rw [Function.update_of_ne hn]
        exact hslot
  | exitGroup pid =>
    simp only [callStep, myExitGroup_sysCallTable]
    exact hslot
  | dispatch pid m =>
    simp only [callStep]
    split
    · exact hslot
    · exact hslot
  | body i =>
    cases hcall : b.calls[i]? with
    | none => simpa only [callStep, hcall] using hslot
    | some call =>
      rw [callStep_body hcall]
      exact hslot

/-- The slot of a released number does not hold `interceptor` until the next INTERCEPT. -/
theorem CallRun.released {p : List (Lts.Transition (Busy κ) CallEvent)}
    (hrun : CallRun K handlers p b) : Settled K handlers b ∧
    ∀ later t earlier n, p = later ++ t :: earlier → Granted K requestSyscallRelease n t →
      (∀ t' ∈ later, ¬ Granted K requestSyscallIntercept n t') →
      b.state.sysCallTable n ≠ some .interceptor := by
  induction hrun with
  | nil =>
    refine ⟨settled_idle K handlers, ?_⟩
    intro later t earlier n hp
    simp at hp
  | @snoc p b b' e hrun hstep ih =>
    obtain ⟨hb, ih⟩ := ih
    obtain rfl : callStep K b e = b' := hstep
    refine ⟨hb.step e, ?_⟩
    intro later t earlier n hp hrel hnot
    cases later with
    | nil =>
      obtain ⟨rfl, -⟩ := List.cons.inj hp
      exact hrel.released hb rfl
    | cons t' later =>
      obtain ⟨rfl, hp'⟩ := List.cons.inj hp
      rw [List.forall_mem_cons] at hnot
      exact callStep_slot hb (ih later t earlier n hp' hrel hnot.2) hnot.1

/-! ## All along a run -/

theorem flagsAgree_idle (K : Kernel) (handlers : ℕ → κ) : FlagsAgree (idle K handlers).state := by
  intro n
  rw [FlagAgrees, idle, loaded_table]
  refine iff_of_false ?_ (loadedSlot_ne_interceptor K handlers n)
  show (0 : Int) ≠ 1
  decide

/-- **A release is not undone by calls in flight**: all along a run the flag is 1 exactly for the
slots that hold `interceptor`, and a released number can be intercepted again, exactly if no body
of `interceptor` runs when its number has been released. -/
theorem inFlight_iff {p : List (Lts.Transition (Busy κ) CallEvent)}
    (hrun : CallRun K handlers p b) :
    ((∀ t ∈ p, FlagsAgree t.before.state) ∧ FlagsAgree b.state) ∧ ReleaseStands K p b ↔
      ∀ t ∈ p, ¬ t.event.Late t.before := by
  have hthrough : ((∀ t ∈ p, FlagsAgree t.before.state) ∧ FlagsAgree b.state) ↔
      ∀ t ∈ p, ¬ t.event.Late t.before := by
    refine Lts.Run.throughout_iff (I := Settled K handlers) (P := fun b => FlagsAgree b.state)
      (C := fun b e => ¬ CallEvent.Late b e) (settled_idle K handlers)
      (flagsAgree_idle K handlers) ?_ ?_ hrun
    · intro b e b' hb hst
      rw [← Lts.ofFun_iff.1 hst]
      exact hb.step e
    · intro b e b' hb hf hst
      rw [← Lts.ofFun_iff.1 hst]
      exact callStep_flagsAgree_iff hb hf e
  rw [hthrough]
  refine and_iff_left_of_imp fun hlate => ?_
  have hf := (hthrough.2 hlate).2
  intro later t earlier n hp hrel hnot c kmalloc pid
  have hslot := hrun.released.2 later t earlier n hp hrel hnot
  exact intercept_ne_ebusy (fun hi => hslot ((hf n).1 hi)) c kmalloc pid

/-! ## Two runs -/

/-- Root intercepts syscall 5. -/
def exInterceptCall : CallEvent := .request exRoot true requestSyscallIntercept 5 0

def exReleaseCall : CallEvent := .request exRoot true requestSyscallRelease 5 0

/-- The run of the events, which stand newest first like its transitions, and its last state. -/
def exCalls : List CallEvent → List (Lts.Transition (Busy ℕ) CallEvent) × Busy ℕ
  | [] => ([], idle i386 id)
  | e :: es =>
    (⟨(exCalls es).2, e, callStep i386 (exCalls es).2 e⟩ :: (exCalls es).1,
      callStep i386 (exCalls es).2 e)

theorem exCalls_run (es : List CallEvent) : CallRun i386 id (exCalls es).1 (exCalls es).2 := by
  induction es with
  | nil => exact .nil
  | cons e es ih => exact .snoc ih rfl

theorem inFlight_prompt :
    ((∀ t ∈ (exCalls [.body 0, .dispatch 8 5, exInterceptCall]).1, FlagsAgree t.before.state) ∧
      FlagsAgree (exCalls [.body 0, .dispatch 8 5, exInterceptCall]).2.state) ∧
    ReleaseStands i386 (exCalls [.body 0, .dispatch 8 5, exInterceptCall]).1
      (exCalls [.body 0, .dispatch 8 5, exInterceptCall]).2 := by
  refine (inFlight_iff (exCalls_run [.body 0, .dispatch 8 5, exInterceptCall])).2 ?_
  intro t ht
  simp only [exCalls, List.mem_cons, List.not_mem_nil, or_false] at ht
  rcases ht with rfl | rfl | rfl
  · intro hlate
    obtain ⟨call, hcall, hslot⟩ := hlate
    obtain rfl : (8, 5) = call := Option.some.inj hcall
    exact hslot rfl
  · exact id
  · exact id

/-- Pid 8 calls 5, the number is released, and the body runs after that: the flag is 1 with the
kernel's handler in the slot, and the next INTERCEPT is refused. -/
theorem body_undoes_release :
    CallRun i386 id (exCalls [.body 0, exReleaseCall, .dispatch 8 5, exInterceptCall]).1
      (exCalls [.body 0, exReleaseCall, .dispatch 8 5, exInterceptCall]).2 ∧
    ¬ FlagsAgree (exCalls [.body 0, exReleaseCall, .dispatch 8 5, exInterceptCall]).2.state ∧
    ¬ ReleaseStands i386 (exCalls [.body 0, exReleaseCall, .dispatch 8 5, exInterceptCall]).1
      (exCalls [.body 0, exReleaseCall, .dispatch 8 5, exInterceptCall]).2 := by
  refine ⟨exCalls_run _, fun hf => ?_, fun hstands => ?_⟩
  · have hslot := (hf 5).1 rfl
    cases hslot
  · refine hstands [_] _ _ 5 rfl ⟨exRoot, true, 0, rfl, rfl⟩ ?_ exRoot true 0 rfl
    intro t ht hgrant
    rw [List.mem_singleton.1 ht] at hgrant
    obtain ⟨c, kmalloc, pid, hevent, -⟩ := hgrant
    cases hevent

end Cscc69.Interceptor
