import Cscc69.Paging.Simulator

/-!
# The fifo policy

The policy's data is the `index` it keeps in the coremap's first element, which always is the
number of a frame.
-/

namespace Cscc69.Paging

variable {memsize : ℕ}

/-- Evict the oldest page, and move on to the second oldest. -/
def fifoEvict (s : Sim (Fin memsize)) : Option (ℕ × Sim (Fin memsize)) :=
  let evict := s.policy
  let index := if h : evict + 1 < memsize then ⟨evict + 1, h⟩ else ⟨0, evict.pos⟩
  some (evict, { s with policy := index })

def fifoRef (_ : Ptr) (s : Sim (Fin memsize)) : Option (Sim (Fin memsize)) := some s

def fifo (memsize : ℕ) : Policy (Fin memsize) := ⟨fifoEvict, fifoRef⟩

theorem OnlyRef.of_policy {σ : Type*} (s : Sim σ) (policy : σ) :
    OnlyRef s { s with policy := policy } :=
  ⟨fun _ => rfl, fun _ => rfl, fun _ => rfl, rfl, rfl, rfl, rfl⟩

theorem fifo_ok (memsize : ℕ) : (fifo memsize).Ok memsize where
  evict_lt h := by
    obtain ⟨rfl, -⟩ := Prod.mk.inj (Option.some.inj h)
    exact Fin.isLt _
  evict h := by
    obtain ⟨-, rfl⟩ := Prod.mk.inj (Option.some.inj h)
    exact .of_policy _ _
  ref h := by
    obtain rfl := Option.some.inj h
    exact .of_policy _ _

/-! ## A machine to run on -/

/-- A reference during which every transfer succeeds. -/
def Io.whole : Io := ⟨.whole, .whole⟩

/-- A simulator with four slots of swap and all memory zero. -/
def exStart {σ : Type*} (policy : σ) : Sim σ where
  pgdir _ := none
  coremap _ := ⟨false, none⟩
  physmem _ := 0
  swap := ⟨⟨4, fun i => if i = 0 then leftover 4 else 0⟩, fun _ => 0⟩
  counters := ⟨0, 0, 0, 0, 0⟩
  policy := policy

theorem exStart_start {σ : Type*} (policy : σ) :
    start 4 (fun _ => 0) (fun _ => 0) policy = some (exStart policy) := rfl

end Cscc69.Paging
