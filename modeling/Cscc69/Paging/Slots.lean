import Cscc69.Paging.Residency

/-!
# Swap slots

The bitmap is a set of numbers, those of the bits that are set (`Bitmap.Marked`).
`bitmap_create` sets the bits that the last word has over, so that every bit below a word's end is
set or belongs to a slot (`Bitmap.Packed`). This is what the assertions of `bitmap_alloc` need,
and what lets it report lack of space only if all slots are taken (`bitmapAlloc_cases`).

An entry has a slot if its `swap_off`, as the `int` that `swap_pageout` takes it for, is not
`INVALID_SWAP`. In every run the slots of different entries are different and marked, and a slot
once given is never changed (`SlotInv`, `Refer.slots`, `swap_slots`).
-/

namespace Cscc69.Paging

open Bytes Pager

/-! ## Bits -/

/-- The mask of one bit. -/
theorem mask_eq (j : ℕ) : ((1 <<< j : ℕ) : BitVec 32) = BitVec.twoPow 32 j := by
  show BitVec.ofNat 32 (1 <<< j) = _
  apply BitVec.eq_of_toNat_eq
  simp [BitVec.toNat_twoPow, Nat.shiftLeft_eq]

theorem getLsbD_mask (j : ℕ) {i : ℕ} (hi : i < 32) :
    ((1 <<< j : ℕ) : BitVec 32).getLsbD i = decide (i = j) := by
  rw [mask_eq, BitVec.getLsbD_twoPow]
  by_cases hij : j = i
  · simp [hij, hi]
  · simp [hij, Ne.symm hij]

theorem and_mask_eq_zero (w : BitVec 32) {j : ℕ} (hj : j < 32) :
    w &&& ((1 <<< j : ℕ) : BitVec 32) = 0 ↔ w.getLsbD j = false := by
  rw [mask_eq]
  exact and_twoPow_eq_zero w hj

theorem getLsbD_leftover {overbits i : ℕ} (hover : overbits ≤ 32) (hi : i < 32) :
    (leftover overbits).getLsbD i = decide (overbits ≤ i) := by
  have key : ∀ (n : ℕ) (w : BitVec 32),
      ((List.range' overbits n).foldl (fun (w : BitVec 32) (j : ℕ) => w ||| (1 <<< j))
        w).getLsbD i =
        (w.getLsbD i || decide (overbits ≤ i ∧ i < overbits + n)) := by
    intro n
    induction n with
    | zero =>
      intro w
      have hempty : ¬ (overbits ≤ i ∧ i < overbits) := by omega
      rw [List.range'_zero, List.foldl_nil, Nat.add_zero, decide_eq_false hempty, Bool.or_false]
    | succ n ih =>
      intro w
      rw [List.range'_concat, List.foldl_append, List.foldl_cons, List.foldl_nil,
        BitVec.getLsbD_or, ih, getLsbD_mask _ hi, Bool.or_assoc, ← Bool.decide_or]
      congr 2
      apply propext
      omega
  have hzero : (0 : BitVec 32).getLsbD i = false := BitVec.getLsbD_zero
  rw [leftover, key, hzero, Bool.false_or]
  congr 1
  apply propext
  omega

theorem wordAllbits_eq : wordAllbits = BitVec.allOnes 32 := by decide

/-- A word that is not all ones has a clear bit. -/
theorem exists_clear {w : BitVec 32} (hw : w ≠ wordAllbits) : ∃ j < 32, w.getLsbD j = false := by
  by_contra hnone
  refine hw (BitVec.eq_of_getLsbD_eq fun j hj => ?_)
  rw [wordAllbits_eq, BitVec.getLsbD_allOnes, decide_eq_true hj]
  by_contra hbit
  exact hnone ⟨j, hj, by simpa using hbit⟩

/-! ## The bitmap as a set -/

namespace Bitmap

def Marked (b : Bitmap) (i : ℕ) : Prop := (b.v (i / 32)).getLsbD (i % 32) = true

/-- The number of words. -/
def words (b : Bitmap) : ℕ := (divRoundUp b.nbits bitsPerWord).toNat

/-- The bits of the last word that belong to no slot are set. -/
def Packed (b : Bitmap) : Prop := ∀ i, b.nbits.toNat ≤ i → i < 32 * b.words → b.Marked i

end Bitmap

theorem divRoundUp_toNat (nbits : BitVec 32) :
    (divRoundUp nbits bitsPerWord).toNat = (nbits.toNat + 31) % 2 ^ 32 / 32 := by
  have hlt := nbits.isLt
  have hword : bitsPerWord.toNat = 32 := rfl
  have hsum : (nbits + bitsPerWord - 1).toNat = (nbits.toNat + 31) % 2 ^ 32 := by
    rw [BitVec.toNat_sub, BitVec.toNat_add, hword]
    show (2 ^ 32 - 1 + (nbits.toNat + 32) % 2 ^ 32) % 2 ^ 32 = _
    omega
  rw [divRoundUp, BitVec.toNat_udiv, hsum, hword]

/-- **`bitmap_create` fails no assertion**, and marks just the bits that are left over. -/
theorem bitmapCreate_some (nbits : BitVec 32) : ∃ b, bitmapCreate nbits = some b ∧
    b.nbits = nbits ∧ ∀ i < 32 * b.words, b.Marked i ↔ nbits.toNat ≤ i := by
  have hlt := nbits.isLt
  have hwords := divRoundUp_toNat nbits
  have hdiv : (nbits / bitsPerWord).toNat = nbits.toNat / 32 := by
    rw [BitVec.toNat_udiv]
    rfl
  unfold bitmapCreate
  dsimp only
  split
  · rename_i hmore
    have hmore' : nbits.toNat / 32 < (divRoundUp nbits bitsPerWord).toNat := by
      rw [← hdiv]
      exact hmore
    -- there is a word too many only if the sum did not wrap
    have hsmall : nbits.toNat + 31 < 2 ^ 32 := by
      by_contra hbig
      rw [hwords] at hmore'
      omega
    have hix : (divRoundUp nbits bitsPerWord - 1).toNat = nbits.toNat / 32 := by
      have hone : ((1 : BitVec 32)).toNat = 1 := rfl
      rw [BitVec.toNat_sub_of_le (by rw [BitVec.le_def, hone]; omega), hone]
      omega
    have hover : (nbits - (divRoundUp nbits bitsPerWord - 1) * bitsPerWord).toNat =
        nbits.toNat % 32 := by
      have hmul : ((divRoundUp nbits bitsPerWord - 1) * bitsPerWord).toNat =
          nbits.toNat / 32 * 32 := by
        rw [BitVec.toNat_mul, hix]
        show nbits.toNat / 32 * 32 % 2 ^ 32 = _
        omega
      rw [BitVec.toNat_sub_of_le (by rw [BitVec.le_def, hmul]; omega), hmul]
      omega
    have hpos : 0 < nbits.toNat % 32 := by omega
    rw [if_pos]
    · refine ⟨_, rfl, rfl, fun i hi => ?_⟩
      have hi' : i < 32 * (divRoundUp nbits bitsPerWord).toNat := hi
      rw [hix, hover]
      show (if i / 32 = nbits.toNat / 32 then leftover (nbits.toNat % 32) else 0#32).getLsbD
        (i % 32) = true ↔ _
      split
      · rw [getLsbD_leftover (by omega) (by omega), decide_eq_true_iff]
        omega
      · rw [BitVec.getLsbD_zero]
        simp only [Bool.false_eq_true, false_iff]
        omega
    · refine ⟨?_, ?_, ?_⟩
      · rw [← BitVec.toNat_inj, hix, hdiv]
      · rw [gt_iff_lt, BitVec.lt_def, hover]
        exact hpos
      · rw [BitVec.lt_def, hover]
        exact Nat.mod_lt _ (by decide)
  · rename_i hmore
    have hmore' : (divRoundUp nbits bitsPerWord).toNat ≤ nbits.toNat / 32 := by
      rw [← hdiv]
      exact Nat.le_of_not_lt hmore
    refine ⟨_, rfl, rfl, fun i hi => ?_⟩
    have hi' : i < 32 * (divRoundUp nbits bitsPerWord).toNat := hi
    show (0#32).getLsbD (i % 32) = true ↔ _
    rw [BitVec.getLsbD_zero]
    simp only [Bool.false_eq_true, false_iff]
    omega

/-- **`bitmap_alloc` fails no assertion.** It reports lack of space only if every bit is set, and
otherwise sets the bit of a slot that was clear. -/
theorem bitmapAlloc_cases {b : Bitmap} (hpacked : b.Packed) :
    (bitmapAlloc b = some none ∧ ∀ i < 32 * b.words, b.Marked i) ∨
    ∃ idx b', bitmapAlloc b = some (some (idx, b')) ∧ idx.toNat < b.nbits.toNat ∧
      ¬ b.Marked idx.toNat ∧ b'.nbits = b.nbits ∧
      ∀ i, b'.Marked i ↔ i = idx.toNat ∨ b.Marked i := by
  have hwords : b.words < 2 ^ 27 := by
    rw [Bitmap.words, divRoundUp_toNat]
    omega
  unfold bitmapAlloc
  cases hix : (List.range (divRoundUp b.nbits bitsPerWord).toNat).find?
      fun ix => b.v ix ≠ wordAllbits with
  | none =>
    refine .inl ⟨by simp only [hix], fun i hi => ?_⟩
    have hmem : i / 32 ∈ List.range (divRoundUp b.nbits bitsPerWord).toNat := by
      rw [List.mem_range]
      show i / 32 < b.words
      omega
    have hword : b.v (i / 32) = wordAllbits := by
      simpa using List.find?_eq_none.1 hix _ hmem
    rw [Bitmap.Marked, hword, wordAllbits_eq, BitVec.getLsbD_allOnes]
    exact decide_eq_true (Nat.mod_lt i (by decide))
  | some ix =>
    right
    have hlt : ix < b.words := List.mem_range.1 (List.mem_of_find?_eq_some hix)
    have hword : b.v ix ≠ wordAllbits := by simpa using List.find?_some hix
    obtain ⟨j, hj, hclear⟩ := exists_clear hword
    cases hoff : (List.range 32).find? fun offset => b.v ix &&& (1 <<< offset) = 0 with
    | none =>
      have hset := List.find?_eq_none.1 hoff j (List.mem_range.2 hj)
      rw [decide_eq_true_iff, and_mask_eq_zero _ hj] at hset
      exact absurd hclear hset
    | some offset =>
      have ho : offset < 32 := List.mem_range.1 (List.mem_of_find?_eq_some hoff)
      have hbit : (b.v ix).getLsbD offset = false := by
        have hzero := List.find?_some hoff
        rwa [decide_eq_true_iff, and_mask_eq_zero _ ho] at hzero
      have hidx : (BitVec.ofNat 32 (ix * 32 + offset)).toNat = ix * 32 + offset := by
        rw [BitVec.toNat_ofNat]
        omega
      have hdiv : (ix * 32 + offset) / 32 = ix := by omega
      have hmod : (ix * 32 + offset) % 32 = offset := by omega
      have hfree : ¬ b.Marked (ix * 32 + offset) := by
        rw [Bitmap.Marked, hdiv, hmod, hbit]
        exact Bool.false_ne_true
      have hbound : ix * 32 + offset < b.nbits.toNat := by
        by_contra hge
        exact hfree (hpacked _ (by omega) (by omega))
      have hlt' : BitVec.ofNat 32 (ix * 32 + offset) < b.nbits := by
        rw [BitVec.lt_def, hidx]
        exact hbound
      refine ⟨BitVec.ofNat 32 (ix * 32 + offset), { b with
        v := Function.update b.v ix (b.v ix ||| ((1 <<< offset : ℕ) : BitVec 32)) }, ?_,
        by rw [hidx]; exact hbound, by rw [hidx]; exact hfree, rfl, fun i => ?_⟩
      · simp only [hix, hoff, hlt', if_true]
      · rw [hidx]
        show (Function.update b.v ix _ (i / 32)).getLsbD (i % 32) = true ↔ _
        by_cases hi : i / 32 = ix
        · rw [hi, Function.update_self, BitVec.getLsbD_or,
            getLsbD_mask _ (Nat.mod_lt i (by decide)), Bool.or_eq_true,
            decide_eq_true_iff, Bitmap.Marked, hi, or_comm]
          refine or_congr_left ?_
          omega
        · rw [Function.update_of_ne hi]
          have hne : i ≠ ix * 32 + offset := by
            intro heq
            exact hi (by omega)
          exact (or_iff_right hne).symm

/-! ## `swap_pageout` -/

/-- Slot `k` as an entry records it. -/
def slotOff (k : ℕ) : BitVec 64 := BitVec.ofNat 64 (k * simpagesize)

theorem signExtend_slotOff {k : ℕ} (hk : k < 2 ^ 27) :
    (BitVec.ofNat 32 (k * simpagesize)).signExtend 64 = slotOff k := by
  have hsize : k * simpagesize < 2 ^ 31 := by
    show k * 16 < 2 ^ 31
    omega
  have hnat : (BitVec.ofNat 32 (k * simpagesize)).toNat = k * simpagesize := by
    rw [BitVec.toNat_ofNat]
    exact Nat.mod_eq_of_lt (by omega)
  have hmsb : (BitVec.ofNat 32 (k * simpagesize)).msb = false := by
    rw [BitVec.msb_eq_false_iff_two_mul_lt, hnat]
    omega
  rw [BitVec.signExtend_eq_setWidth_of_msb_false hmsb]
  apply BitVec.eq_of_toNat_eq
  rw [BitVec.toNat_setWidth, hnat, slotOff, BitVec.toNat_ofNat]

theorem setWidth_slotOff (k : ℕ) :
    (slotOff k).setWidth 32 = BitVec.ofNat 32 (k * simpagesize) := by
  apply BitVec.eq_of_toNat_eq
  rw [BitVec.toNat_setWidth, slotOff, BitVec.toNat_ofNat, BitVec.toNat_ofNat]
  omega

theorem slotOff_inj {k k' : ℕ} (hk : k < 2 ^ 27) (hk' : k' < 2 ^ 27) (h : slotOff k = slotOff k') :
    k = k' := by
  have hnat := congrArg BitVec.toNat h
  rw [slotOff, slotOff, BitVec.toNat_ofNat, BitVec.toNat_ofNat] at hnat
  have hsize : simpagesize = 16 := rfl
  rw [hsize] at hnat
  omega

/-- From `m` to `m'`, slots were only taken. -/
structure Bitmap.Grows (m m' : Bitmap) : Prop where
  nbits : m'.nbits = m.nbits
  marked : ∀ i, m.Marked i → m'.Marked i

theorem Bitmap.Grows.refl (m : Bitmap) : m.Grows m := ⟨rfl, fun _ h => h⟩

theorem Bitmap.Grows.packed {m m' : Bitmap} (h : m.Grows m') (hm : m.Packed) : m'.Packed := by
  intro i hge hlt
  rw [h.nbits] at hge
  rw [Bitmap.words, h.nbits] at hlt
  exact h.marked i (hm i hge hlt)

/-- The slot of a page at `off`, when the map goes from `m` to `m'`: the one the page had, or one
that was free and is marked now. -/
inductive PagedOut (m m' : Bitmap) (off : BitVec 32) : BitVec 32 → Prop
  | again : off ≠ invalidSwap → PagedOut m m' off off
  | fresh {k : ℕ} : off = invalidSwap → k < m.nbits.toNat → ¬ m.Marked k → m'.Marked k →
      PagedOut m m' off (BitVec.ofNat 32 (k * simpagesize))

/-- An offset is a multiple of 16, which `INVALID_SWAP` is not. -/
theorem PagedOut.ne_invalidSwap {m m' : Bitmap} {off offset : BitVec 32}
    (h : PagedOut m m' off offset) : offset ≠ invalidSwap := by
  cases h with
  | again hoff => exact hoff
  | @fresh k _ _ _ _ =>
    intro heq
    have hnat := congrArg BitVec.toNat heq
    have hinvalid : invalidSwap.toNat = 2 ^ 32 - 1 := rfl
    have hsize' : simpagesize = 16 := rfl
    rw [BitVec.toNat_ofNat, hinvalid, hsize'] at hnat
    omega

theorem swapSlot_some {off offset : BitVec 32} {sw sw' : Swap} (hpacked : sw.map.Packed)
    (h : swapSlot off sw = some (some (offset, sw'))) :
    sw.map.Grows sw'.map ∧ PagedOut sw.map sw'.map off offset := by
  unfold swapSlot at h
  split at h
  · rename_i hoff
    obtain ⟨hnone, -⟩ | ⟨idx, map', halloc, hlt, hfree, hn, hmarked⟩ := bitmapAlloc_cases hpacked
    · rw [hnone] at h
      cases h
    · rw [halloc] at h
      cases h
      have hmul : slotOffset idx = BitVec.ofNat 32 (idx.toNat * simpagesize) := by
        rw [slotOffset, BitVec.ofNat_mul, BitVec.ofNat_toNat, BitVec.setWidth_eq]
      rw [hmul]
      exact ⟨⟨hn, fun i hi => (hmarked i).2 (.inr hi)⟩,
        .fresh hoff hlt hfree ((hmarked _).2 (.inl rfl))⟩
  · rename_i hoff
    cases h
    exact ⟨.refl _, .again hoff⟩

theorem Bitmap.nbits_le_words {b : Bitmap} (hsize : b.nbits.toNat ≤ 2 ^ 27) :
    b.nbits.toNat ≤ 32 * b.words := by
  rw [Bitmap.words, divRoundUp_toNat]
  omega

/-- **Lack of space is reported only if every slot is marked.** -/
theorem swapSlot_full {off : BitVec 32} {sw : Swap} (hpacked : sw.map.Packed)
    (hsize : sw.map.nbits.toNat ≤ 2 ^ 27)
    (h : swapSlot off sw = some none) : ∀ k < sw.map.nbits.toNat, sw.map.Marked k := by
  unfold swapSlot at h
  split at h
  · obtain ⟨-, hall⟩ | ⟨idx, map', halloc, -⟩ := bitmapAlloc_cases hpacked
    · intro k hk
      exact hall k (hk.trans_le (Bitmap.nbits_le_words hsize))
    · rw [halloc] at h
      cases h
  · cases h

theorem swapPageout_some {io : Transfer} {physmem : Mem} {frame : ℕ} {off offset : BitVec 32}
    {sw sw' : Swap} (hpacked : sw.map.Packed)
    (h : swapPageout io physmem frame off sw = some (offset, sw')) :
    sw.map.Grows sw'.map ∧ (offset = invalidSwap ∨ PagedOut sw.map sw'.map off offset) := by
  unfold swapPageout at h
  split at h
  · cases h
  · cases h
    exact ⟨.refl _, .inl rfl⟩
  · rename_i offset₁ sw₁ hslot
    obtain ⟨hgrows, hout⟩ := swapSlot_some hpacked hslot
    -- a failed seek or a short write leaves the slot marked, and the entry without it
    split at h
    · cases h
    split at h
    · cases h
      exact ⟨hgrows, .inl rfl⟩
    dsimp only at h
    split at h
    · cases h
      exact ⟨hgrows, .inl rfl⟩
    · cases h
      exact ⟨hgrows, .inr hout⟩

/-- **`swap_pageout` fails no assertion.** -/
theorem swapPageout_isSome {sw : Swap} (hpacked : sw.map.Packed) (io : Transfer) (physmem : Mem)
    (frame : ℕ) (off : BitVec 32) : ∃ r, swapPageout io physmem frame off sw = some r := by
  unfold swapPageout
  split
  · rename_i hslot
    unfold swapSlot at hslot
    split at hslot
    · obtain ⟨halloc, -⟩ | ⟨idx, map', halloc, -⟩ := bitmapAlloc_cases hpacked
      · rw [halloc] at hslot
        cases hslot
      · rw [halloc] at hslot
        cases hslot
    · cases hslot
  · exact ⟨_, rfl⟩
  · rename_i offset sw₁ hslot
    obtain ⟨-, hout⟩ := swapSlot_some hpacked hslot
    rw [if_neg hout.ne_invalidSwap]
    dsimp only
    split
    · exact ⟨_, rfl⟩
    split
    · exact ⟨_, rfl⟩
    · exact ⟨_, rfl⟩

/-! ## Entries with a slot -/

/-- The entry has a slot: its `swap_off`, as an `int`, is not `INVALID_SWAP`. -/
def HasSlot (x : Page) : Prop := x.swapOff.setWidth 32 ≠ invalidSwap

/-- The entries' slots are their own. -/
structure SlotInv (swapsize : ℕ) (a : Pager) : Prop where
  nbits : a.swap.map.nbits.toNat = swapsize
  packed : a.swap.map.Packed
  slot : ∀ p, HasSlot (a.page p) →
    ∃ k < swapsize, (a.page p).swapOff = slotOff k ∧ a.swap.map.Marked k
  distinct : ∀ p q, p ≠ q → HasSlot (a.page p) → HasSlot (a.page q) →
    (a.page p).swapOff ≠ (a.page q).swapOff

/-- From `a` to `a'`, the entries kept their slots. -/
def KeepsSlots (a a' : Pager) : Prop :=
  ∀ p, HasSlot (a.page p) → (a'.page p).swapOff = (a.page p).swapOff

variable {swapsize frame : ℕ} {a a' a'' : Pager} {p bye : Ptr} {vaddr : BitVec 64} {write : Bool}
  {io : Transfer}

theorem HasSlot.of_eq {x y : Page} (h : HasSlot x) (heq : y.swapOff = x.swapOff) : HasSlot y := by
  unfold HasSlot
  rw [heq]
  exact h

theorem KeepsSlots.trans (h : KeepsSlots a a') (h' : KeepsSlots a' a'') : KeepsSlots a a'' := by
  intro p hp
  rw [h' p (hp.of_eq (h p hp)), h p hp]

/-- Neither the offsets nor the map changed. -/
structure SameSlots (a a' : Pager) : Prop where
  map : a'.swap.map = a.swap.map
  swapOff : ∀ p, (a'.page p).swapOff = (a.page p).swapOff

theorem SameSlots.keeps (h : SameSlots a a') : KeepsSlots a a' := fun p _ => h.swapOff p

theorem SameSlots.inv (h : SameSlots a a') (hinv : SlotInv swapsize a) : SlotInv swapsize a' where
  nbits := by
    rw [h.map]
    exact hinv.nbits
  packed := by
    rw [h.map]
    exact hinv.packed
  slot p hp := by
    rw [h.map, h.swapOff]
    exact hinv.slot p (hp.of_eq (h.swapOff p).symm)
  distinct p q hpq hp hq := by
    rw [h.swapOff, h.swapOff]
    exact hinv.distinct p q hpq (hp.of_eq (h.swapOff p).symm) (hq.of_eq (h.swapOff q).symm)

theorem SameSlots.trans (h : SameSlots a a') (h' : SameSlots a' a'') : SameSlots a a'' :=
  ⟨h'.map.trans h.map, fun p => (h'.swapOff p).trans (h.swapOff p)⟩

theorem sameSlots_load_touch (a : Pager) (frame : ℕ) (p : Ptr) (vaddr : BitVec 64) (write : Bool) :
    SameSlots a ((a.load frame p vaddr).touch p write) := by
  refine ⟨rfl, fun q => ?_⟩
  rw [load_touch_page]
  by_cases hq : q = p
  · subst hq
    rw [Function.update_self]
  · rw [Function.update_of_ne hq]

/-- Slots were only taken, and the entry of `bye` says `x` now: it keeps its offset, or it gets a
slot that was free. -/
structure Reslotted (swapsize : ℕ) (bye : Ptr) (x : Page) (a a' : Pager) : Prop where
  grows : a.swap.map.Grows a'.swap.map
  page : a'.page = Function.update a.page bye x
  slot : x.swapOff = (a.page bye).swapOff ∨ ¬ HasSlot (a.page bye) ∧
    ∃ k < swapsize, x.swapOff = slotOff k ∧ ¬ a.swap.map.Marked k ∧ a'.swap.map.Marked k

namespace Reslotted

variable {x : Page}

theorem page_of_ne (h : Reslotted swapsize bye x a a') {q : Ptr} (hq : q ≠ bye) :
    a'.page q = a.page q := by
  rw [h.page, Function.update_of_ne hq]

theorem page_self (h : Reslotted swapsize bye x a a') : a'.page bye = x := by
  rw [h.page, Function.update_self]

theorem keeps (h : Reslotted swapsize bye x a a') : KeepsSlots a a' := by
  intro q hq
  by_cases hqb : q = bye
  · subst hqb
    rw [h.page_self]
    exact h.slot.resolve_right fun hnew => hnew.1 hq
  · rw [h.page_of_ne hqb]

/-- The victim's slot, if it has one now, is that of no other entry. -/
theorem distinct_bye (h : Reslotted swapsize bye x a a') (hsize : swapsize ≤ 2 ^ 27)
    (hinv : SlotInv swapsize a) {q : Ptr} (hq : q ≠ bye) (hx : HasSlot x)
    (hslot : HasSlot (a.page q)) : x.swapOff ≠ (a.page q).swapOff := by
  obtain hsame | ⟨-, k, hk, hoff, hfree, -⟩ := h.slot
  · rw [hsame]
    exact hinv.distinct bye q hq.symm (hx.of_eq hsame.symm) hslot
  · obtain ⟨k', hk', hoff', hmarked⟩ := hinv.slot q hslot
    rw [hoff, hoff']
    intro heq
    rw [slotOff_inj (hk.trans_le hsize) (hk'.trans_le hsize) heq] at hfree
    exact hfree hmarked

theorem inv (h : Reslotted swapsize bye x a a') (hsize : swapsize ≤ 2 ^ 27)
    (hinv : SlotInv swapsize a) : SlotInv swapsize a' where
  nbits := by
    rw [h.grows.nbits]
    exact hinv.nbits
  packed := h.grows.packed hinv.packed
  slot q hq := by
    by_cases hqb : q = bye
    · subst hqb
      rw [h.page_self] at hq ⊢
      obtain hsame | ⟨-, k, hk, hoff, -, hmarked⟩ := h.slot
      · obtain ⟨k, hk, hoff, hmarked⟩ := hinv.slot q (hq.of_eq hsame.symm)
        exact ⟨k, hk, hsame.trans hoff, h.grows.marked k hmarked⟩
      · exact ⟨k, hk, hoff, hmarked⟩
    · rw [h.page_of_ne hqb] at hq ⊢
      obtain ⟨k, hk, hoff, hmarked⟩ := hinv.slot q hq
      exact ⟨k, hk, hoff, h.grows.marked k hmarked⟩
  distinct q r hqr hq hr := by
    by_cases hqb : q = bye
    · subst hqb
      rw [h.page_of_ne hqr.symm] at hr ⊢
      rw [h.page_self] at hq ⊢
      exact h.distinct_bye hsize hinv hqr.symm hq hr
    · rw [h.page_of_ne hqb] at hq ⊢
      by_cases hrb : r = bye
      · subst hrb
        rw [h.page_self] at hr ⊢
        exact (h.distinct_bye hsize hinv hqb hr hq).symm
      · rw [h.page_of_ne hrb] at hr ⊢
        exact hinv.distinct q r hqr hq hr

end Reslotted

/-- An eviction is such a change. -/
theorem evictFrame_reslotted (hsize : swapsize ≤ 2 ^ 27) (hinv : SlotInv swapsize a)
    (h : a.evictFrame io frame bye = some a') : ∃ x, Reslotted swapsize bye x a a' := by
  unfold Pager.evictFrame at h
  split at h
  · cases h
    exact ⟨_, .refl _, rfl, .inl rfl⟩
  · obtain ⟨⟨offset, sw⟩, hout, rfl⟩ := Option.map_eq_some_iff.1 h
    obtain ⟨hgrows, hcases⟩ := swapPageout_some hinv.packed hout
    refine ⟨_, hgrows, rfl, ?_⟩
    unfold swappedOut
    obtain rfl | hcases := hcases
    · exact .inl rfl
    cases hcases with
    | again hoff =>
      rw [if_pos hoff]
      obtain ⟨k, hk, hslot, -⟩ := hinv.slot bye hoff
      left
      rw [hslot, setWidth_slotOff]
      exact signExtend_slotOff (hk.trans_le hsize)
    | @fresh k hoff hk hfree hmarked =>
      rw [hinv.nbits] at hk
      by_cases hne : BitVec.ofNat 32 (k * simpagesize) ≠ invalidSwap
      · rw [if_pos hne]
        exact .inr ⟨fun hslot => hslot hoff, k, hk, signExtend_slotOff (hk.trans_le hsize), hfree,
          hmarked⟩
      · rw [if_neg hne]
        exact .inl rfl

/-! ## References and runs -/

/-- **A reference keeps the slots apart, and every slot with its entry.** -/
theorem Refer.slots {memsize : ℕ} (hsize : swapsize ≤ 2 ^ 27) (hinv : SlotInv swapsize a)
    (h : Refer memsize io p vaddr write a a') : SlotInv swapsize a' ∧ KeepsSlots a a' := by
  cases h with
  | hit _ =>
    have hsame : SameSlots a (a.countHit.touch p write) := by
      refine ⟨rfl, fun q => ?_⟩
      rw [touch_page, countHit_page]
      by_cases hq : q = p
      · subst hq
        rw [Function.update_self]
      · rw [Function.update_of_ne hq]
    exact ⟨hsame.inv hinv, hsame.keeps⟩
  | @free frame _ _ _ =>
    have hcount : SameSlots a a.countMiss := ⟨rfl, fun _ => rfl⟩
    have hsame := hcount.trans (sameSlots_load_touch a.countMiss frame p vaddr write)
    exact ⟨hsame.inv hinv, hsame.keeps⟩
  | @evict frame bye a₁ _ _ _ _ hevict =>
    have hcount : SameSlots a a.countMiss := ⟨rfl, fun _ => rfl⟩
    obtain ⟨x, hre⟩ := evictFrame_reslotted hsize (hcount.inv hinv) hevict
    have hload := sameSlots_load_touch a₁ frame p vaddr write
    exact ⟨hload.inv (hre.inv hsize (hcount.inv hinv)),
      hcount.keeps.trans (hre.keeps.trans hload.keeps)⟩

variable {σ : Type*} {pol : Policy σ} {memsize : ℕ} {s₀ s s' : Sim σ}

theorem sameSlots_bump (a : Pager) (p : Ptr) (write : Bool) : SameSlots a (a.bump p write) := by
  unfold Pager.bump
  cases write
  · exact ⟨rfl, fun _ => rfl⟩
  · exact ⟨rfl, fun _ => rfl⟩

theorem step_slots (hok : pol.Ok memsize) (hmem : memsize ≤ 2 ^ 19) (hsize : swapsize ≤ 2 ^ 27)
    (hinv : SlotInv swapsize s.pager) {r : Reference} (h : step pol memsize s r s') :
    SlotInv swapsize s'.pager ∧ KeepsSlots s.pager s'.pager := by
  obtain ⟨p, a', -, href, hs'⟩ := step_refer hok hmem h
  obtain ⟨hinv', hkeeps⟩ := href.slots hsize hinv
  have hbump := sameSlots_bump a' p (decide (Writes r.type))
  rw [hs']
  exact ⟨hbump.inv hinv', hkeeps.trans hbump.keeps⟩

theorem start_slots {size : BitVec 32} {physmem file : Mem} {policy : σ}
    (h : start size physmem file policy = some s₀) : SlotInv size.toNat s₀.pager := by
  obtain ⟨b, hcreate, hn, hmarked⟩ := bitmapCreate_some size
  obtain ⟨sw, hsw, rfl⟩ := Option.map_eq_some_iff.1 h
  obtain ⟨b', hb', rfl⟩ := Option.map_eq_some_iff.1 hsw
  obtain rfl : b = b' := Option.some.inj (hcreate.symm.trans hb')
  have hnone : ∀ q : Ptr, ¬ HasSlot PgtblEntry.fresh.page := fun _ hslot => hslot rfl
  refine ⟨congrArg BitVec.toNat hn, fun i hge hlt => ?_, fun q hq => ?_, fun q _ _ hq => ?_⟩
  · rw [← hn] at hmarked
    exact (hmarked i hlt).2 hge
  · exact absurd hq (hnone q)
  · exact absurd hq (hnone q)

theorem run_slots (hok : pol.Ok memsize) (hmem : memsize ≤ 2 ^ 19) (hsize : swapsize ≤ 2 ^ 27)
    (hinv : SlotInv swapsize s.pager) {h : List (Lts.Transition (Sim σ) Reference)}
    (hrun : Lts.Run (step pol memsize) s h s') :
    SlotInv swapsize s'.pager ∧ KeepsSlots s.pager s'.pager := by
  refine hrun.invariant (I := fun t => SlotInv swapsize t.pager ∧ KeepsSlots s.pager t.pager)
    ⟨hinv, fun _ _ => rfl⟩ fun t r t' ht hst => ?_
  obtain ⟨hinv', hkeeps⟩ := step_slots hok hmem hsize ht.1 hst
  exact ⟨hinv', ht.2.trans hkeeps⟩

/-! ## The program -/

/-- What holds of the swap slots in a reachable state. -/
structure SlotsKept (pol : Policy σ) (memsize swapsize : ℕ) (s : Sim σ) : Prop where
  slot : ∀ p, HasSlot (s.entry p).page → ∃ k < swapsize,
    (s.entry p).swapOff = BitVec.ofNat 64 (k * simpagesize) ∧ s.swap.map.Marked k
  distinct : ∀ p q, p ≠ q → HasSlot (s.entry p).page → HasSlot (s.entry q).page →
    (s.entry p).swapOff ≠ (s.entry q).swapOff
  kept : ∀ p, HasSlot (s.entry p).page → ∀ h s', Lts.Run (step pol memsize) s h s' →
    (s'.entry p).swapOff = (s.entry p).swapOff
  /-- `swap_pageout` finds no space -/
  full : ∀ off, swapSlot off s.swap = some none → ∀ k < swapsize, s.swap.map.Marked k
  alloc : ∃ r, bitmapAlloc s.swap.map = some r
  pageout : ∀ io physmem frame off, ∃ r, swapPageout io physmem frame off s.swap = some r

/-- **Swap slots are never shared,** under any policy and any answers of the system: creating the
bitmap fails no assertion, and in every state that a run reaches the slots are kept. -/
theorem swap_slots (hok : pol.Ok memsize) (hmem : memsize ≤ 2 ^ 19) (size : BitVec 32)
    (hsize : size.toNat ≤ 2 ^ 27) (physmem file : Mem) (policy : σ) :
    (∃ s₀, start size physmem file policy = some s₀) ∧
    ∀ s₀ h s, start size physmem file policy = some s₀ → Lts.Run (step pol memsize) s₀ h s →
      SlotsKept pol memsize size.toNat s := by
  constructor
  · obtain ⟨b, hcreate, -⟩ := bitmapCreate_some size
    unfold start swapInit
    rw [hcreate]
    exact ⟨_, rfl⟩
  · intro s₀ h s hs₀ hrun
    obtain ⟨hinv, -⟩ := run_slots hok hmem hsize (start_slots hs₀) hrun
    refine ⟨hinv.slot, hinv.distinct, fun p hp h' s' hrun' => ?_, fun off hfull => ?_, ?_,
      fun io physmem frame off => swapPageout_isSome hinv.packed io physmem frame off⟩
    · exact (run_slots hok hmem hsize hinv hrun').2 p hp
    · have hn : s.swap.map.nbits.toNat = size.toNat := hinv.nbits
      rw [← hn] at hsize ⊢
      exact swapSlot_full hinv.packed hsize hfull
    · obtain ⟨halloc, -⟩ | ⟨idx, map', halloc, -⟩ := bitmapAlloc_cases hinv.packed
      · exact ⟨_, halloc⟩
      · exact ⟨_, halloc⟩

/-- With one frame and the fifo policy: a write to page 0, and a read of page 1 that evicts it and
gives it a slot. -/
theorem swap_slots_evict : ∃ s,
    replay (fifo 1) 1 [⟨'S', 0, Io.whole⟩, ⟨'L', 0x1000, Io.whole⟩] (exStart 0) = some s ∧
      SlotsKept (fifo 1) 1 4 s := by
  obtain ⟨s, hs⟩ : ∃ s,
      replay (fifo 1) 1 [⟨'S', 0, Io.whole⟩, ⟨'L', 0x1000, Io.whole⟩] (exStart 0) = some s :=
    Option.isSome_iff_exists.1 (by decide)
  obtain ⟨h, hr, -⟩ := replay_reaches hs
  exact ⟨s, hs, (swap_slots (fifo_ok 1) (by decide) 4 (by decide) (fun _ => 0) (fun _ => 0) 0).2
    (exStart 0) h s (exStart_start 0) hr⟩

end Cscc69.Paging
