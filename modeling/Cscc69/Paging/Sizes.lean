import Cscc69.Lib.Scanf
import Cscc69.Paging.Swap

/-!
# The sizes of memory and swap

`main` takes both sizes from the command line as they are, and every 32-bit number can be given
(`optionSize_decimal`). Three products and shifts depend on them, each in 32 bits:

* an entry keeps `frame << PAGE_SHIFT`, which has room for `2 ^ 20` frames (`framesFit_iff`);
* `physmem` is a block of `memsize * SIMPAGESIZE` bytes, which is less than one byte for each byte
  of a frame from `2 ^ 28` frames on (`framesInside_iff`);
* a slot's place in the swap file is the `int` `idx * SIMPAGESIZE`, which is negative from slot
  `2 ^ 27` on (`slotsFit_iff`).

Main result: `sizesFit_iff`.
-/

namespace Cscc69.Paging

open CText

/-! ## The command line -/

/-- `main`'s `memsize` or `swapsize` for the argument of its option. -/
def optionSize (optarg : List UInt8) : BitVec 32 := (strtoul optarg).setWidth 32

/-- **Every size can be given.** -/
theorem optionSize_decimal (size : BitVec 32) : optionSize (decimal size.toNat) = size := by
  have hlt : size.toNat < 2 ^ 32 := size.isLt
  rw [optionSize, strtoul_decimal (by omega)]
  apply BitVec.eq_of_toNat_eq
  rw [BitVec.toNat_setWidth, BitVec.toNat_ofNat]
  omega

/-! ## Encodings -/

/-- `memsize * SIMPAGESIZE`, which `main` asks `malloc` for. `start` is given any memory: that it is
large enough is `FramesInside`. -/
def physmemSize (memsize : BitVec 32) : BitVec 32 := memsize * BitVec.ofNat 32 simpagesize

/-- An entry keeps every frame number, and none of its bits falls into the status bits. -/
structure FramesFit (memsize : BitVec 32) : Prop where
  back : ∀ frame < memsize, frameWord frame >>> pageShift = frame
  status : ∀ frame < memsize, ∀ i < pageShift, (frameWord frame).getLsbD i = false

/-- The bytes of every frame are in `physmem`. -/
def FramesInside (memsize : BitVec 32) : Prop :=
  ∀ frame < memsize, frame.toNat * simpagesize + simpagesize ≤ (physmemSize memsize).toNat

structure SlotsFit (swapsize : BitVec 32) : Prop where
  nonneg : ∀ idx < swapsize, 0 ≤ (slotOffset idx).toInt
  valid : ∀ idx < swapsize, slotOffset idx ≠ invalidSwap
  inj : ∀ idx < swapsize, ∀ idx' < swapsize, slotOffset idx = slotOffset idx' → idx = idx'

structure SizesFit (memsize swapsize : BitVec 32) : Prop where
  frames : FramesFit memsize
  inside : FramesInside memsize
  slots : SlotsFit swapsize

/-! ## The functions that use them -/

/-- An entry that has just got a frame reads as that of the frame number it keeps. -/
theorem page_frameWord (e : PgtblEntry) (frame : BitVec 32) :
    ({ e with frame := frameWord frame } : PgtblEntry).page =
      ⟨false, false, false, (frameWord frame >>> pageShift).toNat, e.swapOff⟩ := by
  unfold PgtblEntry.page
  simp [frameWord, pageShift]

theorem bitmapAlloc_lt {b b' : Bitmap} {idx : BitVec 32}
    (h : bitmapAlloc b = some (some (idx, b'))) : idx < b.nbits := by
  unfold bitmapAlloc at h
  dsimp only at h
  split at h
  · cases h
  · split at h
    · cases h
    · split at h
      · rename_i hlt
        obtain ⟨rfl, -⟩ := Prod.mk.inj (Option.some.inj (Option.some.inj h))
        exact hlt
      · cases h

/-- A page that has no slot yet gets the place of one of the slots of the bitmap. -/
theorem swapSlot_new {sw sw' : Swap} {offset : BitVec 32}
    (h : swapSlot invalidSwap sw = some (some (offset, sw'))) :
    ∃ idx < sw.map.nbits, offset = slotOffset idx := by
  rw [swapSlot, if_pos rfl] at h
  obtain ⟨r, hr, heq⟩ := Option.map_eq_some_iff.1 h
  obtain ⟨⟨idx, map⟩, hidx, heq⟩ := Option.map_eq_some_iff.1 heq
  obtain ⟨rfl, -⟩ := Prod.mk.inj heq
  rw [hidx] at hr
  exact ⟨idx, bitmapAlloc_lt hr, rfl⟩

/-! ## The limits -/

variable {memsize swapsize : BitVec 32}

theorem toNat_frameWord (frame : BitVec 32) :
    (frameWord frame).toNat = frame.toNat * 4096 % 2 ^ 32 := by
  rw [frameWord, BitVec.toNat_shiftLeft, Nat.shiftLeft_eq]
  rfl

theorem frameWord_back (frame : BitVec 32) :
    frameWord frame >>> pageShift = frame ↔ frame.toNat < 2 ^ 20 := by
  have hshift : (frameWord frame >>> pageShift).toNat = frame.toNat * 4096 % 2 ^ 32 / 4096 := by
    rw [BitVec.toNat_ushiftRight, Nat.shiftRight_eq_div_pow, toNat_frameWord]
    rfl
  rw [← BitVec.toNat_inj, hshift]
  omega

theorem framesFit_iff : FramesFit memsize ↔ memsize.toNat ≤ 2 ^ 20 := by
  constructor
  · intro h
    by_contra hmany
    have hframe : (BitVec.ofNat 32 (2 ^ 20)).toNat = 2 ^ 20 := by decide
    have hlt : BitVec.ofNat 32 (2 ^ 20) < memsize := by
      rw [BitVec.lt_def, hframe]
      omega
    have hback := (frameWord_back _).1 (h.back _ hlt)
    omega
  · intro hmany
    refine ⟨fun frame hlt => ?_, fun frame _ i hi => ?_⟩
    · rw [BitVec.lt_def] at hlt
      exact (frameWord_back frame).2 (by omega)
    · simp [frameWord, hi]

theorem toNat_physmemSize (memsize : BitVec 32) :
    (physmemSize memsize).toNat = memsize.toNat * 16 % 2 ^ 32 := by
  rw [physmemSize, BitVec.toNat_mul]
  rfl

theorem framesInside_iff : FramesInside memsize ↔ memsize.toNat < 2 ^ 28 := by
  have hpage : simpagesize = 16 := rfl
  unfold FramesInside
  rw [toNat_physmemSize, hpage]
  constructor
  · intro h
    by_contra hmany
    have hlast : (memsize - 1).toNat = memsize.toNat - 1 := by
      rw [BitVec.toNat_sub]
      have hsize : memsize.toNat < 2 ^ 32 := memsize.isLt
      have hone : (1 : BitVec 32).toNat = 1 := rfl
      rw [hone]
      omega
    have hlt : memsize - 1 < memsize := by
      rw [BitVec.lt_def, hlast]
      omega
    have hin := h (memsize - 1) hlt
    have hmod : memsize.toNat * 16 % 2 ^ 32 < 2 ^ 32 := Nat.mod_lt _ (by decide)
    rw [hlast] at hin
    omega
  · intro hmany frame hlt
    rw [BitVec.lt_def] at hlt
    omega

theorem toNat_slotOffset (idx : BitVec 32) :
    (slotOffset idx).toNat = idx.toNat * 16 % 2 ^ 32 := by
  rw [slotOffset, BitVec.toNat_mul]
  rfl

theorem slotsFit_iff : SlotsFit swapsize ↔ swapsize.toNat ≤ 2 ^ 27 := by
  constructor
  · intro h
    by_contra hmany
    have hidx : (BitVec.ofNat 32 (2 ^ 27)).toNat = 2 ^ 27 := by decide
    have hlt : BitVec.ofNat 32 (2 ^ 27) < swapsize := by
      rw [BitVec.lt_def, hidx]
      omega
    exact absurd (h.nonneg _ hlt) (by decide)
  · intro hmany
    have hoffset : ∀ idx < swapsize, (slotOffset idx).toNat = idx.toNat * 16 ∧
        idx.toNat * 16 < 2 ^ 31 := by
      intro idx hlt
      rw [BitVec.lt_def] at hlt
      rw [toNat_slotOffset]
      omega
    refine ⟨fun idx hlt => ?_, fun idx hlt hinvalid => ?_, fun idx hlt idx' hlt' heq => ?_⟩
    · obtain ⟨hnat, hsmall⟩ := hoffset idx hlt
      rw [BitVec.toInt_eq_toNat_of_lt (by omega)]
      exact Int.natCast_nonneg _
    · obtain ⟨hnat, hsmall⟩ := hoffset idx hlt
      rw [hinvalid] at hnat
      have hlast : invalidSwap.toNat = 2 ^ 32 - 1 := by decide
      omega
    · obtain ⟨hnat, -⟩ := hoffset idx hlt
      obtain ⟨hnat', -⟩ := hoffset idx' hlt'
      rw [heq] at hnat
      exact BitVec.eq_of_toNat_eq (by omega)

/-- **The sizes fit their encodings exactly up to `2 ^ 20` frames and `2 ^ 27` slots.** -/
theorem sizesFit_iff (memsize swapsize : BitVec 32) :
    SizesFit memsize swapsize ↔ memsize.toNat ≤ 2 ^ 20 ∧ swapsize.toNat ≤ 2 ^ 27 := by
  constructor
  · intro h
    exact ⟨framesFit_iff.1 h.frames, slotsFit_iff.1 h.slots⟩
  · rintro ⟨hmem, hswap⟩
    exact ⟨framesFit_iff.2 hmem, framesInside_iff.2 (by omega), slotsFit_iff.2 hswap⟩

/-- One frame too many, with the swap size that `main` uses by default, and one slot too many. -/
theorem sizes_too_large :
    ¬ SizesFit (optionSize (decimal 1048577)) 4096 ∧
      ¬ SizesFit 100 (optionSize (decimal 134217729)) := by
  have hmem : optionSize (decimal 1048577) = 1048577 := optionSize_decimal 1048577
  have hswap : optionSize (decimal 134217729) = 134217729 := optionSize_decimal 134217729
  rw [hmem, hswap]
  constructor
  · intro h
    -- frame 2 ^ 20 is kept as frame 0
    exact absurd (h.frames.back 1048576 (by decide)) (by decide)
  · intro h
    -- slot 2 ^ 27 is at a negative offset
    exact absurd (h.slots.nonneg 134217728 (by decide)) (by decide)

end Cscc69.Paging
