import Mathlib.Data.List.Induction
import Mathlib.Tactic.Common

/-!
# Runs of a labelled step relation

A system is a relation `step s e t`: in state `s` the event `e` may lead to `t`. A *run* keeps
its whole past: `Run step s₀ h s` says that the transitions of `h`, newest first, lead from `s₀`
to `s`. Keeping the past newest first makes "since the last time that …" a recursion on `h`.

* `Run.invariant`: what holds at first and is kept by every step holds wherever a run ends.
* `Run.invariant_while`: the same for runs whose transitions all meet a condition.
* `Run.throughout_iff`: what holds at first and is kept by exactly the steps of a kind holds all
  along just the runs of such steps.
* `Run.map_while`: when each step looks like one of another system, a run looks like a run of that.
* `Run.split`: every transition of a run is a step out of a state that a run reaches.
-/

namespace Lts

variable {σ ε : Type*}

/-- One step of a run: the state before, the event, and the state after. -/
structure Transition (σ ε : Type*) where
  before : σ
  event : ε
  after : σ

/-- The transitions of `h`, newest first, lead from `s₀` to the final state. -/
inductive Run (step : σ → ε → σ → Prop) (s₀ : σ) : List (Transition σ ε) → σ → Prop
  | nil : Run step s₀ [] s₀
  | snoc {h : List (Transition σ ε)} {s t : σ} {e : ε} :
      Run step s₀ h s → step s e t → Run step s₀ (⟨s, e, t⟩ :: h) t

/-- Some run ends in `s`. -/
def Reachable (step : σ → ε → σ → Prop) (s₀ s : σ) : Prop := ∃ h, Run step s₀ h s

variable {step : σ → ε → σ → Prop} {s₀ s : σ} {h : List (Transition σ ε)}

theorem Reachable.refl : Reachable step s₀ s₀ := ⟨[], .nil⟩

theorem Reachable.snoc {t : σ} {e : ε} (hr : Reachable step s₀ s) (hs : step s e t) :
    Reachable step s₀ t := by
  obtain ⟨h, hr⟩ := hr
  exact ⟨_, hr.snoc hs⟩

/-! ## Invariants -/

/-- **The invariant rule**, for runs whose transitions all meet the condition `C`. -/
theorem Run.invariant_while {I : σ → Prop} {C : σ → ε → Prop} (h₀ : I s₀)
    (hs : ∀ s e t, I s → C s e → step s e t → I t) (hr : Run step s₀ h s)
    (hC : ∀ t ∈ h, C t.before t.event) : I s := by
  induction hr with
  | nil => exact h₀
  | snoc _ hstep ih =>
    have hI := ih fun t ht => hC t (List.mem_cons_of_mem _ ht)
    exact hs _ _ _ hI (hC _ List.mem_cons_self) hstep

/-- What holds at first and is kept by every step holds wherever a run ends. -/
theorem Run.invariant {I : σ → Prop} (h₀ : I s₀) (hs : ∀ s e t, I s → step s e t → I t)
    (hr : Run step s₀ h s) : I s :=
  hr.invariant_while (C := fun _ _ => True) h₀ (fun s e t hI _ hst => hs s e t hI hst)
    fun _ _ => trivial

theorem Reachable.invariant {I : σ → Prop} (h₀ : I s₀) (hs : ∀ s e t, I s → step s e t → I t)
    (hr : Reachable step s₀ s) : I s := by
  obtain ⟨h, hr⟩ := hr
  exact hr.invariant h₀ hs

/-- An invariant about the past as well as the state: it holds of the empty past and every step
extends it. -/
theorem Run.invariant_past {I : List (Transition σ ε) → σ → Prop} (h₀ : I [] s₀)
    (hs : ∀ h s e t, I h s → step s e t → I (⟨s, e, t⟩ :: h) t) (hr : Run step s₀ h s) :
    I h s := by
  induction hr with
  | nil => exact h₀
  | snoc _ hstep ih => exact hs _ _ _ _ ih hstep

/-- **All along a run.** If `P` holds at first, and a step out of a state with `P` keeps it exactly
if it meets `C`, then `P` holds all along a run exactly if all its steps meet `C`. -/
theorem Run.throughout_iff {I P : σ → Prop} {C : σ → ε → Prop} (hI₀ : I s₀) (hP₀ : P s₀)
    (hI : ∀ s e t, I s → step s e t → I t)
    (hP : ∀ s e t, I s → P s → step s e t → (P t ↔ C s e)) (hr : Run step s₀ h s) :
    ((∀ t ∈ h, P t.before) ∧ P s) ↔ ∀ t ∈ h, C t.before t.event := by
  induction hr with
  | nil => simpa using hP₀
  | @snoc h s t e hr hstep ih =>
    have hinv := hr.invariant hI₀ hI
    simp only [List.forall_mem_cons]
    rw [← ih]
    constructor
    · intro hall
      obtain ⟨⟨hs, hh⟩, ht⟩ := hall
      exact ⟨(hP s e t hinv hs hstep).1 ht, hh, hs⟩
    · intro hall
      obtain ⟨hC, hh, hs⟩ := hall
      exact ⟨⟨hs, hh⟩, (hP s e t hinv hs hstep).2 hC⟩

/-! ## Refinement -/

section

variable {τ δ : Type*} {step' : τ → δ → τ → Prop} {α : σ → τ} {β : σ → ε → δ}

/-- A transition as it looks from another system: `α` takes states to states of that, and `β` the
events to its events. -/
def Transition.map (α : σ → τ) (β : σ → ε → δ) (t : Transition σ ε) : Transition τ δ :=
  ⟨α t.before, β t.before t.event, α t.after⟩

/-- **The refinement rule**, for runs whose transitions all meet the condition `C`: when each step
looks like a step of the other system, the run looks like one of its runs. -/
theorem Run.map_while {I : σ → Prop} {C : σ → ε → Prop} (h₀ : I s₀)
    (hs : ∀ s e t, I s → C s e → step s e t → I t ∧ step' (α s) (β s e) (α t))
    (hr : Run step s₀ h s) (hC : ∀ t ∈ h, C t.before t.event) :
    Run step' (α s₀) (h.map (Transition.map α β)) (α s) := by
  induction hr with
  | nil => exact .nil
  | @snoc h s t e hr hstep ih =>
    have hC' : ∀ t ∈ h, C t.before t.event := fun t ht => hC t (List.mem_cons_of_mem _ ht)
    have hI : I s := hr.invariant_while h₀ (fun s e t hI hc hst => (hs s e t hI hc hst).1) hC'
    exact .snoc (ih hC') (hs s e t hI (hC _ List.mem_cons_self) hstep).2

end

/-! ## Cutting and joining runs -/

/-- Cut at any of its transitions, a run gives the run before it and the step it took. -/
theorem Run.split {later earlier : List (Transition σ ε)} {t : Transition σ ε}
    (hr : Run step s₀ (later ++ t :: earlier) s) :
    Run step s₀ earlier t.before ∧ step t.before t.event t.after := by
  induction later generalizing s with
  | nil => cases hr with | snoc hr hs => exact ⟨hr, hs⟩
  | cons u later ih => cases hr with | snoc hr _ => exact ih hr

theorem Run.append {s₁ : σ} {h' : List (Transition σ ε)} (hr : Run step s₀ h s₁)
    (hr' : Run step s₁ h' s) : Run step s₀ (h' ++ h) s := by
  induction hr' with
  | nil => exact hr
  | snoc _ hs ih => exact ih.snoc hs

theorem Reachable.trans {s₁ : σ} (h₁ : Reachable step s₀ s₁) (h₂ : Reachable step s₁ s) :
    Reachable step s₀ s := by
  obtain ⟨h, hr⟩ := h₁
  obtain ⟨h', hr'⟩ := h₂
  exact ⟨h' ++ h, hr.append hr'⟩

/-! ## Deterministic systems -/

/-- The step relation of a total step function. -/
def ofFun (f : σ → ε → σ) (s : σ) (e : ε) (t : σ) : Prop := f s e = t

theorem ofFun_iff {f : σ → ε → σ} {s t : σ} {e : ε} : ofFun f s e t ↔ f s e = t := Iff.rfl

/-- A total step function takes the events of a list one after the other. -/
theorem reachable_foldl (f : σ → ε → σ) (s₀ : σ) (es : List ε) :
    Reachable (ofFun f) s₀ (es.foldl f s₀) := by
  induction es using List.reverseRecOn with
  | nil => exact .refl
  | append_singleton es e ih =>
    rw [List.foldl_append]
    exact ih.snoc rfl

end Lts
