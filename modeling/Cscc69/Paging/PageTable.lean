import Mathlib.Data.BitVec
import Mathlib.Data.Nat.Bitwise
import Mathlib.Tactic.Common

/-!
# Page-table entries

An entry keeps a frame number above twelve status bits. `PgtblEntry.page` reads a whole entry as
a `Page`, without the reference bit, which belongs to the replacement policies, and the lemmas say
what each update of the frame word does to it. Everything later is said about pages.

The page table has two levels. `entryOf` takes an address below `2 ^ 36` to the place of its
entry; two such addresses share an entry exactly if they share a page (`entryOf_eq_iff`).

A second-level table is a function from indices to entries, and a pointer to an entry is the pair
of its two indices. (The program keeps `PG_VALID` in the table's address and does not mask it off
before it indexes the table, so its entries lie one byte above the ones `init_second_level`
filled in; as the first bytes of an entry are zero and a swap offset is cut to an `int` before it
is used, they start out invalid, with no offset, all the same.)
-/

namespace Cscc69.Paging

def pageShift : ℕ := 12
def simpagesize : ℕ := 16
def ptrsPerPgdir : ℕ := 4096
def ptrsPerPgtbl : ℕ := 4096
def pgdirShift : ℕ := 24

def pgValid : BitVec 32 := 0x1
def pgDirty : BitVec 32 := 0x2
def pgRef : BitVec 32 := 0x4
def pgOnswap : BitVec 32 := 0x8

/-- `INVALID_SWAP`, as an `int` and as an `off_t`. -/
def invalidSwap : BitVec 32 := -1
def invalidSwapOff : BitVec 64 := -1

structure PgtblEntry where
  frame : BitVec 32
  swapOff : BitVec 64

/-- An entry as `init_second_level` leaves it. In the tables that are bytes, `find_physpage` sees
the lowest bits of it: 32 of `swap_off`, of which no more are used, and 24 of the frame word
(`entry_fresh`). -/
def PgtblEntry.fresh : PgtblEntry := ⟨0, invalidSwapOff⟩

/-! ## Addresses -/

/-- The place of an entry: its index in the page directory and in the second-level table. -/
abbrev Ptr := Fin ptrsPerPgdir × Fin ptrsPerPgtbl

/-- `PGDIR_INDEX`, cut to an `unsigned`. -/
def pgdirIndex (vaddr : BitVec 64) : BitVec 32 := (vaddr >>> pgdirShift).setWidth 32

/-- `PGTBL_INDEX` -/
def pgtblIndex (vaddr : BitVec 64) : Fin ptrsPerPgtbl :=
  ⟨((vaddr >>> pageShift) &&& 4095).toNat,
    Nat.lt_of_le_of_lt (BitVec.toNat_and .. ▸ Nat.and_le_right) (by decide)⟩

/-- The directory index of an address, if it is in range. -/
def dirOf (vaddr : BitVec 64) : Option (Fin ptrsPerPgdir) :=
  if h : (pgdirIndex vaddr).toNat < ptrsPerPgdir then some ⟨_, h⟩ else none

/-- The place of an address's entry, if the directory has one for it. -/
def entryOf (vaddr : BitVec 64) : Option Ptr :=
  (dirOf vaddr).map fun dir => (dir, pgtblIndex vaddr)

theorem pgdirIndex_toNat {vaddr : BitVec 64} (h : vaddr.toNat < 2 ^ 36) :
    (pgdirIndex vaddr).toNat = vaddr.toNat / 2 ^ 24 := by
  rw [pgdirIndex, BitVec.toNat_setWidth, BitVec.toNat_ushiftRight, Nat.shiftRight_eq_div_pow]
  have hlt : vaddr.toNat / 2 ^ 24 < 2 ^ 32 := by omega
  exact Nat.mod_eq_of_lt hlt

theorem pgtblIndex_val (vaddr : BitVec 64) :
    (pgtblIndex vaddr).val = vaddr.toNat / 2 ^ 12 % 2 ^ 12 := by
  have hmask : ((4095 : BitVec 64)).toNat = 2 ^ 12 - 1 := by decide
  show ((vaddr >>> pageShift) &&& 4095).toNat = _
  rw [BitVec.toNat_and, BitVec.toNat_ushiftRight, hmask, Nat.and_two_pow_sub_one_eq_mod,
    Nat.shiftRight_eq_div_pow]
  rfl

theorem entryOf_isSome {vaddr : BitVec 64} (h : vaddr.toNat < 2 ^ 36) :
    ∃ p, entryOf vaddr = some p := by
  have hlt : (pgdirIndex vaddr).toNat < ptrsPerPgdir := by
    rw [pgdirIndex_toNat h]
    show vaddr.toNat / 2 ^ 24 < 4096
    omega
  unfold entryOf dirOf
  rw [dif_pos hlt]
  exact ⟨_, rfl⟩

/-- **One entry for each page.** -/
theorem entryOf_eq_iff {vaddr vaddr' : BitVec 64} (h : vaddr.toNat < 2 ^ 36)
    (h' : vaddr'.toNat < 2 ^ 36) :
    entryOf vaddr = entryOf vaddr' ↔ vaddr.toNat / 4096 = vaddr'.toNat / 4096 := by
  have hd := pgdirIndex_toNat h
  have hd' := pgdirIndex_toNat h'
  have ht := pgtblIndex_val vaddr
  have ht' := pgtblIndex_val vaddr'
  have hlt : (pgdirIndex vaddr).toNat < ptrsPerPgdir := by
    show _ < 4096
    omega
  have hlt' : (pgdirIndex vaddr').toNat < ptrsPerPgdir := by
    show _ < 4096
    omega
  unfold entryOf dirOf
  rw [dif_pos hlt, dif_pos hlt', Option.map_some, Option.map_some, Option.some_inj,
    Prod.mk.injEq, Fin.ext_iff, Fin.ext_iff]
  simp only
  omega

/-! ## Status bits -/

/-- What an entry says about its page, without `PG_REF`. -/
@[ext] structure Page where
  valid : Bool
  dirty : Bool
  onswap : Bool
  frame : ℕ
  swapOff : BitVec 64
  deriving DecidableEq

def PgtblEntry.page (e : PgtblEntry) : Page where
  valid := e.frame.getLsbD 0
  dirty := e.frame.getLsbD 1
  onswap := e.frame.getLsbD 3
  frame := (e.frame >>> pageShift).toNat
  swapOff := e.swapOff

variable {e e' : PgtblEntry} {w : BitVec 32}

@[simp] theorem page_fresh : PgtblEntry.fresh.page = ⟨false, false, false, 0, invalidSwapOff⟩ :=
  rfl

theorem and_twoPow_eq_zero (w : BitVec 32) {i : ℕ} (hi : i < 32) :
    w &&& BitVec.twoPow 32 i = 0 ↔ w.getLsbD i = false := by
  rw [BitVec.and_twoPow]
  split
  · rename_i h
    rw [h]
    simp only [Bool.true_eq_false, iff_false]
    intro hz
    have hbit := congrArg (fun v => BitVec.getLsbD v i) hz
    simp [hi] at hbit
  · rename_i h
    simpa using h

theorem and_pgValid : e.frame &&& pgValid = 0 ↔ e.page.valid = false :=
  and_twoPow_eq_zero e.frame (i := 0) (by decide)

theorem and_pgDirty : e.frame &&& pgDirty = 0 ↔ e.page.dirty = false :=
  and_twoPow_eq_zero e.frame (i := 1) (by decide)

theorem and_pgOnswap : e.frame &&& pgOnswap = 0 ↔ e.page.onswap = false :=
  and_twoPow_eq_zero e.frame (i := 3) (by decide)

/-- The status bits that are set in `flags` are set, and the rest of the word stays. -/
theorem page_or (e : PgtblEntry) {flags : BitVec 32} (hf : flags >>> pageShift = 0) :
    ({ e with frame := e.frame ||| flags } : PgtblEntry).page =
      { e.page with
        valid := e.page.valid || flags.getLsbD 0
        dirty := e.page.dirty || flags.getLsbD 1
        onswap := e.page.onswap || flags.getLsbD 3 } := by
  have hframe : (e.frame ||| flags) >>> pageShift = e.frame >>> pageShift := by
    rw [BitVec.ushiftRight_or_distrib, hf]
    exact BitVec.or_zero
  unfold PgtblEntry.page
  simp only [BitVec.getLsbD_or, hframe]

@[simp] theorem page_or_valid (e : PgtblEntry) :
    ({ e with frame := e.frame ||| pgValid } : PgtblEntry).page =
      { e.page with valid := true } := by
  rw [page_or e (by decide)]
  simp [pgValid]

@[simp] theorem page_or_dirty (e : PgtblEntry) :
    ({ e with frame := e.frame ||| pgDirty } : PgtblEntry).page =
      { e.page with dirty := true } := by
  rw [page_or e (by decide)]
  simp [pgDirty]

@[simp] theorem page_or_ref (e : PgtblEntry) :
    ({ e with frame := e.frame ||| pgRef } : PgtblEntry).page = e.page := by
  rw [page_or e (by decide)]
  simp [pgRef]

@[simp] theorem page_or_onswap (e : PgtblEntry) :
    ({ e with frame := e.frame ||| pgOnswap } : PgtblEntry).page =
      { e.page with onswap := true } := by
  rw [page_or e (by decide)]
  simp [pgOnswap]

@[simp] theorem page_clear_valid (e : PgtblEntry) :
    ({ e with frame := e.frame &&& ~~~pgValid } : PgtblEntry).page =
      { e.page with valid := false } := by
  have hshift : (~~~pgValid) >>> pageShift = BitVec.allOnes 32 >>> pageShift := by decide
  unfold PgtblEntry.page
  simp only [BitVec.getLsbD_and, BitVec.ushiftRight_and_distrib, hshift]
  rw [← BitVec.ushiftRight_and_distrib, BitVec.and_allOnes]
  simp [pgValid]

/-- `frame << PAGE_SHIFT`, which `find_physpage` stores in an entry. -/
def frameWord (frame : BitVec 32) : BitVec 32 := frame <<< pageShift

/-- A frame number shifted into place leaves all status bits clear. -/
@[simp] theorem page_set_frame (e : PgtblEntry) {frame : ℕ} (h : frame < 2 ^ 20) :
    ({ e with frame := frameWord (BitVec.ofNat 32 frame) } : PgtblEntry).page =
      ⟨false, false, false, frame, e.swapOff⟩ := by
  have hlt : frame * 2 ^ pageShift < 2 ^ 32 := by
    show frame * 2 ^ 12 < 2 ^ 32
    omega
  have hnat : (frameWord (BitVec.ofNat 32 frame) >>> pageShift).toNat = frame := by
    rw [frameWord, BitVec.toNat_ushiftRight, BitVec.toNat_shiftLeft, BitVec.toNat_ofNat,
      Nat.mod_eq_of_lt (by omega : frame < 2 ^ 32), Nat.shiftLeft_eq, Nat.mod_eq_of_lt hlt,
      Nat.shiftRight_eq_div_pow]
    exact Nat.mul_div_cancel _ (by decide)
  unfold PgtblEntry.page
  rw [hnat]
  simp [frameWord, pageShift]

/-- Two words that differ at most in `PG_REF` say the same about the page. -/
theorem page_congr (hw : e'.frame &&& ~~~pgRef = e.frame &&& ~~~pgRef)
    (ho : e'.swapOff = e.swapOff) : e'.page = e.page := by
  have hbit : ∀ i ≠ 2, e'.frame.getLsbD i = e.frame.getLsbD i := by
    intro i hi
    rcases Nat.lt_or_ge i 32 with hlt | hge
    · have h := congrArg (fun v => BitVec.getLsbD v i) hw
      have href : pgRef.getLsbD i = false := by
        show (BitVec.twoPow 32 2).getLsbD i = false
        rw [BitVec.getLsbD_twoPow]
        simp [hi.symm]
      simp only [BitVec.getLsbD_and, BitVec.getLsbD_not, href, hlt] at h
      simpa using h
    · rw [BitVec.getLsbD_of_ge _ _ hge, BitVec.getLsbD_of_ge _ _ hge]
  have hframe : e'.frame >>> pageShift = e.frame >>> pageShift := by
    apply BitVec.eq_of_getLsbD_eq
    intro i _
    rw [BitVec.getLsbD_ushiftRight, BitVec.getLsbD_ushiftRight]
    exact hbit _ (by simp [pageShift]; omega)
  unfold PgtblEntry.page
  rw [hbit 0 (by decide), hbit 1 (by decide), hbit 3 (by decide), hframe, ho]

end Cscc69.Paging
