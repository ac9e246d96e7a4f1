import Cscc69.Paging.TraceFile

/-!
# The two indices of an address

`replay_trace` takes addresses of 64 bits, and any such address can stand in a trace
(`replayTrace_address`). The table index is the twelve bits above the offset in the page. The
directory index is all that is above these, cut to 32 bits: bits 24 to 55 of the address, without a
mask. It is beyond the end of the directory if one of the bits 36 to 55 is set, and it does not
depend on bits 56 to 63.

A trace whose addresses have 36 bits, as in the comment of pagetable.h, has one entry for each page
(`Spread.of_lt`). Main result: `indexes_iff`.
-/

namespace Cscc69.Paging

open CText

variable {vaddr vaddr' : BitVec 64} {S : Set (BitVec 64)}

/-- `PGTBL_INDEX`, cut to an `unsigned`. -/
def pgtblIndexWord (vaddr : BitVec 64) : BitVec 32 := ((vaddr >>> pageShift) &&& 4095).setWidth 32

theorem pgtblIndexWord_toNat (vaddr : BitVec 64) :
    (pgtblIndexWord vaddr).toNat = (pgtblIndex vaddr).val := by
  have hlt : (pgtblIndex vaddr).val < 4096 := (pgtblIndex vaddr).isLt
  rw [pgtblIndexWord, BitVec.toNat_setWidth]
  show (pgtblIndex vaddr).val % 2 ^ 32 = _
  omega

/-- All 64 bits count here. -/
theorem pgdirIndex_eq (vaddr : BitVec 64) :
    (pgdirIndex vaddr).toNat = vaddr.toNat / 2 ^ 24 % 2 ^ 32 := by
  rw [pgdirIndex, BitVec.toNat_setWidth, BitVec.toNat_ushiftRight, Nat.shiftRight_eq_div_pow]
  rfl

/-- Two addresses select the same entry. -/
def SameEntry (vaddr vaddr' : BitVec 64) : Prop :=
  pgdirIndex vaddr = pgdirIndex vaddr' ∧ pgtblIndexWord vaddr = pgtblIndexWord vaddr'

def SamePage (vaddr vaddr' : BitVec 64) : Prop := vaddr.toNat / 4096 = vaddr'.toNat / 4096

instance (vaddr vaddr' : BitVec 64) : Decidable (SamePage vaddr vaddr') := by
  unfold SamePage; infer_instance

/-- The indices of the addresses are in range, and each page has an entry of its own. -/
structure Indexes (S : Set (BitVec 64)) : Prop where
  dir : ∀ vaddr ∈ S, (pgdirIndex vaddr).toNat < ptrsPerPgdir
  table : ∀ vaddr ∈ S, (pgtblIndexWord vaddr).toNat < ptrsPerPgtbl
  page : ∀ vaddr ∈ S, ∀ vaddr' ∈ S, SameEntry vaddr vaddr' ↔ SamePage vaddr vaddr'

/-- Bits 36 to 55 of the addresses are clear, and two addresses with the same bits 12 to 35 have
the same bits 56 to 63. -/
structure Spread (S : Set (BitVec 64)) : Prop where
  middle : ∀ vaddr ∈ S, vaddr.toNat / 2 ^ 36 % 2 ^ 20 = 0
  top : ∀ vaddr ∈ S, ∀ vaddr' ∈ S, vaddr.toNat / 2 ^ 12 % 2 ^ 24 = vaddr'.toNat / 2 ^ 12 % 2 ^ 24 →
    vaddr.toNat / 2 ^ 56 = vaddr'.toNat / 2 ^ 56

/-- Addresses of 36 bits. -/
theorem Spread.of_lt (h : ∀ vaddr ∈ S, vaddr.toNat < 2 ^ 36) : Spread S where
  middle vaddr hv := by
    have hlt := h vaddr hv
    omega
  top vaddr hv vaddr' hv' _ := by
    have hlt := h vaddr hv
    have hlt' := h vaddr' hv'
    omega

theorem sameEntry_iff : SameEntry vaddr vaddr' ↔
    vaddr.toNat / 2 ^ 12 % 2 ^ 44 = vaddr'.toNat / 2 ^ 12 % 2 ^ 44 := by
  have hdir := pgdirIndex_eq vaddr
  have hdir' := pgdirIndex_eq vaddr'
  have htable := pgtblIndex_val vaddr
  have htable' := pgtblIndex_val vaddr'
  rw [← pgtblIndexWord_toNat] at htable htable'
  rw [SameEntry, ← BitVec.toNat_inj, ← BitVec.toNat_inj]
  omega

theorem dir_lt_iff : (pgdirIndex vaddr).toNat < ptrsPerPgdir ↔
    vaddr.toNat / 2 ^ 36 % 2 ^ 20 = 0 := by
  rw [pgdirIndex_eq]
  show _ < 4096 ↔ _
  omega

theorem indexes_of_spread (h : Spread S) : Indexes S where
  dir vaddr hv := dir_lt_iff.2 (h.middle vaddr hv)
  table vaddr _ := by
    rw [pgtblIndexWord_toNat]
    exact (pgtblIndex vaddr).isLt
  page vaddr hv vaddr' hv' := by
    have hmid := h.middle vaddr hv
    have hmid' := h.middle vaddr' hv'
    have htop := h.top vaddr hv vaddr' hv'
    rw [sameEntry_iff, SamePage]
    omega

theorem spread_of_indexes (h : Indexes S) : Spread S where
  middle vaddr hv := dir_lt_iff.1 (h.dir vaddr hv)
  top vaddr hv vaddr' hv' hlow := by
    have hmid := dir_lt_iff.1 (h.dir vaddr hv)
    have hmid' := dir_lt_iff.1 (h.dir vaddr' hv')
    have hsame : SameEntry vaddr vaddr' := sameEntry_iff.2 (by omega)
    have hpage : vaddr.toNat / 4096 = vaddr'.toNat / 4096 := (h.page vaddr hv vaddr' hv').1 hsame
    omega

theorem entryOf_of_lt (h : (pgdirIndex vaddr).toNat < ptrsPerPgdir) :
    entryOf vaddr = some (⟨_, h⟩, pgtblIndex vaddr) := by
  rw [entryOf, dirOf, dif_pos h]
  rfl

/-- `find_physpage` finds an entry for each of the addresses, one for each page. -/
theorem Indexes.entry (h : Indexes S) (hv : vaddr ∈ S) (hv' : vaddr' ∈ S) :
    (∃ p, entryOf vaddr = some p) ∧ (entryOf vaddr = entryOf vaddr' ↔ SamePage vaddr vaddr') := by
  have hentry := entryOf_of_lt (h.dir vaddr hv)
  have hentry' := entryOf_of_lt (h.dir vaddr' hv')
  refine ⟨⟨_, hentry⟩, ?_⟩
  rw [← h.page vaddr hv vaddr' hv', hentry, hentry', Option.some_inj, Prod.mk.injEq, Fin.ext_iff,
    Fin.ext_iff, SameEntry, ← BitVec.toNat_inj, ← BitVec.toNat_inj, pgtblIndexWord_toNat,
    pgtblIndexWord_toNat]

/-! ## Traces -/

/-- The addresses that `replay_trace` reads from a file. -/
def addresses (type : UInt8) (file : List UInt8) : Set (BitVec 64) :=
  {vaddr | ∃ t, (t, vaddr) ∈ replayTrace type file}

theorem load_ok : (76 : UInt8) ≠ 0 ∧ (76 : UInt8) ≠ newline ∧ (76 : UInt8) ≠ equals := by decide

/-- The trace of one load. -/
def loadOf (vaddr : BitVec 64) : TraceFile where
  lines := [.access 76 load_ok (.ofBitVec vaddr)]
  short l hl := by
    obtain rfl := List.mem_singleton.1 hl
    have hlen : (numeral 16 hexChar vaddr.toNat).length ≤ 16 :=
      length_numeral_le (by decide) (by have hlt := vaddr.isLt; omega)
    show (numeral 16 hexChar vaddr.toNat).length + 3 + 1 < 256
    omega

/-- **Every address can be read.** -/
theorem replayTrace_address (type : UInt8) (vaddr : BitVec 64) :
    replayTrace type (loadOf vaddr).bytes = [(76, vaddr)] := by
  rw [replayTrace_bytes]
  show [((76 : UInt8), (HexText.ofBitVec vaddr).value)] = _
  rw [HexText.value_ofBitVec]

/-- **The indices of a trace are right exactly if its addresses are spread.** -/
theorem indexes_iff (type : UInt8) (file : List UInt8) :
    Indexes (addresses type file) ↔ Spread (addresses type file) :=
  ⟨spread_of_indexes, indexes_of_spread⟩

/-- `L 1000000000`, a load of address `2 ^ 36` -/
def pastDirectory : List UInt8 := [76, 32, 49, 48, 48, 48, 48, 48, 48, 48, 48, 48, 10]

/-- `L 1000` and `L 100000000001000`, which differ in bit 56 -/
def sameLowBits : List UInt8 :=
  [76, 32, 49, 48, 48, 48, 10,
    76, 32, 49, 48, 48, 48, 48, 48, 48, 48, 48, 48, 48, 49, 48, 48, 48, 10]

/-- One address past the end of the directory, and two pages with one entry. -/
theorem indexes_break :
    ¬ Indexes (addresses 0 pastDirectory) ∧ ¬ Indexes (addresses 0 sameLowBits) := by
  have hpast : replayTrace 0 pastDirectory = [(76, 0x1000000000)] := by decide
  have hsame : replayTrace 0 sameLowBits = [(76, 0x1000), (76, 0x100000000001000)] := by decide
  constructor
  · intro h
    have hmem : (0x1000000000 : BitVec 64) ∈ addresses 0 pastDirectory := ⟨76, by simp [hpast]⟩
    exact absurd (h.dir _ hmem) (by decide)
  · intro h
    have hlow : (0x1000 : BitVec 64) ∈ addresses 0 sameLowBits := ⟨76, by simp [hsame]⟩
    have hhigh : (0x100000000001000 : BitVec 64) ∈ addresses 0 sameLowBits :=
      ⟨76, by simp [hsame]⟩
    have hpage := (h.page _ hlow _ hhigh).1 ⟨by decide, by decide⟩
    exact absurd hpage (by decide)

end Cscc69.Paging
