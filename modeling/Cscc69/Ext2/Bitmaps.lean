import Cscc69.Ext2.Bookkeeping
import Mathlib.Order.Bounds.Basic

/-!
# `find_free_block` and `find_free_inode`

Both go through a bitmap bit by bit, with the index of the bit within its byte in a variable of its
own, and take the first clear bit from some number on (`markFirst`). The bits are numbered from 0,
blocks and inodes from 1.

In an image whose bitmaps are in blocks of their own, away from the superblock and the group
descriptor (`Placed`), a call takes the least clear bit, sets it, lowers the free count and writes
nothing else (`Exact`). It leaves an image of that kind, so that all calls of a sequence are exact.
What one call has handed out is marked from then on, and no later call hands it out again.

Main result: `calls_exact`.
-/

namespace Cscc69.Ext2

open Bytes

variable {img img' : Image} {b i k n : ℕ}

/-! ## The loop -/

/-- The loop from bit `i` on, with `n` bits left to look at: the first bit from `first` on that is
clear, and its index within its byte. The bytes are signed characters. -/
def clearBitLoop (img : Image) (block first : ℕ) : ℕ → ℕ → ℕ → Option (ℕ × ℕ)
  | 0, _, _ => none
  | n + 1, i, index =>
    let c := (img (block * ext2BlockSize + i / 8)).toBitVec.signExtend 32
    if c &&& (1 <<< index) = 0 ∧ first ≤ i then some (i, index)
    else clearBitLoop img block first n (i + 1) (if index + 1 = 8 then 0 else index + 1)

/-- The loop over the `limit` bits of a bitmap, and what follows when it finds one: the free count
is the two bytes at `countAt`. -/
def markFirst (img : Image) (block limit first countAt : ℕ) : ℕ × Image :=
  match clearBitLoop img block first limit 0 0 with
  | none => (0, img)
  | some (i, index) =>
    let a := block * ext2BlockSize + i / 8
    let c := (img a).toBitVec.signExtend 32 ||| (1 <<< index)
    let img := Function.update img a (UInt8.ofBitVec (c.setWidth 8))
    (i + 1, store img countAt 2 (load img countAt 2 + 65535))

theorem signExtend_and : ∀ c : UInt8, ∀ k < 8,
    (c.toBitVec.signExtend 32 &&& (1 <<< k) = 0 ↔ c.toNat.testBit k = false) := by
  intro c k hk
  have hsmall : ∀ v : Fin 256, ∀ k < 8, ((BitVec.ofFin v : BitVec 8).signExtend 32 &&& (1 <<< k) = 0
      ↔ v.val.testBit k = false) := by decide +kernel
  exact hsmall c.toBitVec.toFin k hk

theorem signExtend_or : ∀ c : UInt8, ∀ k < 8,
    UInt8.ofBitVec ((c.toBitVec.signExtend 32 ||| (1 <<< k)).setWidth 8) =
      c ||| (1 <<< UInt8.ofNat k) := by
  intro c k hk
  have hsmall : ∀ v : Fin 256, ∀ k < 8,
      UInt8.ofBitVec (((BitVec.ofFin v : BitVec 8).signExtend 32 ||| (1 <<< k)).setWidth 8) =
        UInt8.ofBitVec (BitVec.ofFin v) ||| (1 <<< UInt8.ofNat k) := by decide +kernel
  exact hsmall c.toBitVec.toFin k hk

theorem next_index (i : ℕ) : (if i % 8 + 1 = 8 then 0 else i % 8 + 1) = (i + 1) % 8 := by
  split <;> omega

/-- The index is that of the bit within its byte. -/
theorem clearBitLoop_eq (img : Image) (b first n i : ℕ) :
    clearBitLoop img b first n i (i % 8) =
      ((List.range' i n).find? fun i => !bit img b i && decide (first ≤ i)).map
        fun i => (i, i % 8) := by
  induction n generalizing i with
  | zero => rfl
  | succ n ih =>
    have htest := signExtend_and (img (b * ext2BlockSize + i / 8)) (i % 8)
      (Nat.mod_lt _ (by decide))
    rw [clearBitLoop, List.range'_succ, List.find?_cons, next_index, ih]
    simp only [htest]
    have hbit : (img (b * ext2BlockSize + i / 8)).toNat.testBit (i % 8) = bit img b i := rfl
    rw [hbit]
    by_cases hfree : bit img b i = false ∧ first ≤ i
    · rw [if_pos hfree, hfree.1, decide_eq_true hfree.2]
      rfl
    · have hskip : (!bit img b i && decide (first ≤ i)) = false := by simpa using hfree
      rw [if_neg hfree, hskip]

theorem markFirst_eq (img : Image) (b limit first countAt : ℕ) :
    markFirst img b limit first countAt =
      match (List.range limit).find? fun i => !bit img b i && decide (first ≤ i) with
      | none => (0, img)
      | some i =>
        (i + 1, store (setBit img b i) countAt 2 (load (setBit img b i) countAt 2 + 65535)) := by
  unfold markFirst
  rw [show clearBitLoop img b first limit 0 0 = _ from clearBitLoop_eq img b first limit 0,
    ← List.range_eq_range']
  cases (List.range limit).find? fun i => !bit img b i && decide (first ≤ i) with
  | none => rfl
  | some i =>
    simp only [Option.map_some, signExtend_or _ (i % 8) (Nat.mod_lt _ (by decide))]
    rfl

/-! ## The two functions -/

inductive Call
  | block
  | inode
  deriving DecidableEq

namespace Call

def run : Call → Image → ℕ × Image
  | .block => findFreeBlock
  | .inode => findFreeInode

def bitmap : Call → Image → ℕ
  | .block => bgBlockBitmap
  | .inode => bgInodeBitmap

def limit : Call → Image → ℕ
  | .block => sBlocksCount
  | .inode => sInodesCount

/-- The first bit that may be taken. -/
def first : Call → ℕ
  | .block => 0
  | .inode => 11

def countAt : Call → ℕ
  | .block => 2060
  | .inode => 2062

/-- `bg_free_blocks_count` or `bg_free_inodes_count` -/
def count (c : Call) (img : Image) : ℕ := load img c.countAt 2

/-- Bit `i` is one that a call can take. -/
def Free (c : Call) (img : Image) (i : ℕ) : Prop :=
  c.first ≤ i ∧ i < c.limit img ∧ bit img (c.bitmap img) i = false

theorem run_eq (c : Call) (img : Image) :
    c.run img = markFirst img (c.bitmap img) (c.limit img) c.first c.countAt := by
  rw [markFirst_eq]
  cases c with
  | block =>
    simp only [run, findFreeBlock, bitmap, limit, first, countAt, Nat.zero_le, decide_true,
      Bool.and_true]
    rfl
  | inode => rfl

/-- The number of clear bits below the limit. -/
def clear (c : Call) (img : Image) : ℕ := clearBits img (c.bitmap img) (c.limit img)

/-- Bit `i` set and the free count lowered. -/
def take (c : Call) (img : Image) (i : ℕ) : Image :=
  store (setBit img (c.bitmap img) i) c.countAt 2 (load (setBit img (c.bitmap img) i) c.countAt 2
    + 65535)

/-- The bytes that taking bit `i` changes. -/
def takenBytes (c : Call) (img : Image) (i : ℕ) : Set ℕ :=
  {c.bitmap img * ext2BlockSize + i / 8} ∪ Set.Ico c.countAt (c.countAt + 2)

end Call

/-! ## One call -/

/-- Both bitmaps fit one block of the image, and the two blocks are different from each other, from
the superblock and from the group descriptor. -/
structure Placed (img : Image) : Prop where
  limit : ∀ c : Call, c.limit img ≤ 8192
  inside : ∀ c : Call, (c.bitmap img + 1) * ext2BlockSize ≤ imageSize
  super : ∀ c : Call, c.bitmap img ≠ 1
  descriptor : ∀ c : Call, c.bitmap img ≠ 2
  apart : bgBlockBitmap img ≠ bgInodeBitmap img

/-- What a call that takes bit `i` returns and does. -/
structure Takes (c : Call) (img : Image) (i : ℕ) (r : ℕ × Image) : Prop where
  number : r.1 = i + 1
  bits : ∀ k < 8192, bit r.2 (c.bitmap img) k = (bit img (c.bitmap img) k || decide (k = i))
  count : c.count r.2 = (c.count img + 65535) % 2 ^ 16
  frame : Frame (c.takenBytes img i) img r.2

/-- A call takes the least bit that it can take, and does nothing if there is none. -/
structure Exact (c : Call) (img : Image) : Prop where
  takes : ∀ i, IsLeast {i | c.Free img i} i → Takes c img i (c.run img)
  full : c.run img = (0, img) ↔ ∀ i, ¬ c.Free img i

theorem isLeast_of_find? {c : Call}
    (h : ((List.range (c.limit img)).find? fun i =>
      !bit img (c.bitmap img) i && decide (c.first ≤ i)) = some i) :
    IsLeast {i | c.Free img i} i := by
  rw [List.find?_range_eq_some, Bool.and_eq_true, Bool.not_eq_true', decide_eq_true_eq] at h
  obtain ⟨⟨hclear, hfirst⟩, hlt, hleast⟩ := h
  refine ⟨⟨hfirst, List.mem_range.1 hlt, hclear⟩, fun j hj => ?_⟩
  by_contra hji
  have hskip := hleast j (by omega)
  rw [hj.2.2, decide_eq_true hj.1] at hskip
  cases hskip

/-- A call has one of two outcomes. -/
theorem Call.run_cases (c : Call) (img : Image) :
    (c.run img = (0, img) ∧ ∀ i, ¬ c.Free img i) ∨
      ∃ i, IsLeast {i | c.Free img i} i ∧ c.run img = (i + 1, c.take img i) := by
  rw [c.run_eq, markFirst_eq]
  split
  · rename_i hfind
    refine .inl ⟨rfl, fun i hi => ?_⟩
    rw [List.find?_eq_none] at hfind
    refine hfind i (List.mem_range.2 hi.2.1) ?_
    rw [hi.2.2, decide_eq_true hi.1]
    rfl
  · rename_i i hfind
    exact .inr ⟨i, isLeast_of_find? hfind, rfl⟩

theorem Call.frame_take (c : Call) (img : Image) (i : ℕ) :
    Frame (c.takenBytes img i) img (c.take img i) := by
  have hset : Frame (c.takenBytes img i) img (setBit img (c.bitmap img) i) :=
    (Frame.refl _ _).update (.inl rfl)
  exact hset.store fun j hj hlt => .inr ⟨hj, hlt⟩

namespace Placed

variable (h : Placed img) {c c' : Call}
include h

/-- A bitmap is apart from the superblock and the group descriptor. -/
theorem notMem_low (hi : i < 8192) (hk₁ : 1024 ≤ k) (hk₂ : k < 3072) :
    k ≠ c.bitmap img * ext2BlockSize + i / 8 := by
  have hsize : ext2BlockSize = 1024 := rfl
  have hsuper := h.super c
  have hdescriptor := h.descriptor c
  rw [hsize]
  omega

theorem bitmap_ne (hne : c' ≠ c) : c'.bitmap img ≠ c.bitmap img := by
  cases c <;> cases c'
  · exact absurd rfl hne
  · exact h.apart.symm
  · exact h.apart
  · exact absurd rfl hne

variable (hi : i < c.limit img)
include hi

theorem lt_8192 : i < 8192 := lt_of_lt_of_le hi (h.limit c)

theorem load_setBit (hk₁ : 1024 ≤ k) (hk₂ : k + n ≤ 3072) :
    load (setBit img (c.bitmap img) i) k n = load img k n := by
  have hframe : Frame {c.bitmap img * ext2BlockSize + i / 8} img (setBit img (c.bitmap img) i) :=
    (Frame.refl _ _).update rfl
  refine hframe.load_eq fun j hj hlt => ?_
  exact h.notMem_low (h.lt_8192 hi) (by omega) (by omega)

theorem bit_take_store (hk : k < 8192) :
    bit (c.take img i) (c'.bitmap img) k = bit (setBit img (c.bitmap img) i) (c'.bitmap img) k := by
  have hcount : 2060 ≤ c.countAt ∧ c.countAt + 2 ≤ 2064 := by cases c <;> decide
  unfold Call.take bit store
  rw [if_neg]
  rintro ⟨hlow, hhigh⟩
  have hne := h.notMem_low (c := c') (k := c'.bitmap img * ext2BlockSize + k / 8) hk (by omega)
    (by omega)
  exact hne rfl

theorem bit_take (hk : k < 8192) : bit (c.take img i) (c.bitmap img) k =
    (bit img (c.bitmap img) k || decide (k = i)) := by
  rw [h.bit_take_store hi hk, bit_setBit]

/-- The bits of the other bitmap. -/
theorem bit_take_other (hne : c' ≠ c) (hk : k < 8192) :
    bit (c.take img i) (c'.bitmap img) k = bit img (c'.bitmap img) k := by
  have hframe : Frame (blockBytes (c.bitmap img)) img (setBit img (c.bitmap img) i) :=
    frame_setBit subset_rfl (.refl _ _) (h.lt_8192 hi)
  rw [h.bit_take_store hi hk]
  exact bit_eq hframe (disjoint_blockBytes (h.bitmap_ne hne)) hk

theorem count_take : c.count (c.take img i) = (c.count img + 65535) % 2 ^ 16 := by
  have hcount : 2060 ≤ c.countAt ∧ c.countAt + 2 ≤ 2064 := by cases c <;> decide
  rw [Call.count, Call.take, load_store, h.load_setBit hi (by omega) (by omega)]
  rfl

theorem count_take_other (hne : c' ≠ c) : c'.count (c.take img i) = c'.count img := by
  have hcount : c'.countAt + 2 ≤ c.countAt ∨ c.countAt + 2 ≤ c'.countAt := by
    cases c <;> cases c'
    · exact absurd rfl hne
    · exact .inr (by decide)
    · exact .inl (by decide)
    · exact absurd rfl hne
  have hrange : 2060 ≤ c'.countAt ∧ c'.countAt + 2 ≤ 2064 := by cases c' <;> decide
  rw [Call.count, Call.take, load_store_of_disjoint hcount,
    h.load_setBit hi (by omega) (by omega)]
  rfl

theorem shape : SameShape img (c.take img i) := by
  refine .of_frame (c.frame_take img i) (Set.disjoint_left.2 ?_)
  have hcount : 2060 ≤ c.countAt := by cases c <;> decide
  intro j hj hheader
  simp only [header, Set.mem_union, Set.mem_Ico] at hheader
  rcases hj with hj | hj
  · rw [Set.mem_singleton_iff] at hj
    exact h.notMem_low (h.lt_8192 hi) (by omega) (by omega) hj
  · have hlow : c.countAt ≤ j := hj.1
    omega

end Placed

theorem SameShape.bitmap_eq (hs : SameShape img img') (c : Call) :
    c.bitmap img' = c.bitmap img := by
  cases c
  · exact hs.blockBitmap
  · exact hs.inodeBitmap

theorem SameShape.limit_eq (hs : SameShape img img') (c : Call) : c.limit img' = c.limit img := by
  cases c
  · exact hs.blocks
  · exact hs.inodes

theorem SameShape.placed (hs : SameShape img img') (h : Placed img) : Placed img' where
  limit c := by rw [hs.limit_eq]; exact h.limit c
  inside c := by rw [hs.bitmap_eq]; exact h.inside c
  super c := by rw [hs.bitmap_eq]; exact h.super c
  descriptor c := by rw [hs.bitmap_eq]; exact h.descriptor c
  apart := by rw [hs.blockBitmap, hs.inodeBitmap]; exact h.apart

/-- **One call is exact.** -/
theorem Placed.exactCall (h : Placed img) (c : Call) : Exact c img := by
  rcases c.run_cases img with ⟨heq, hno⟩ | ⟨i, hleast, heq⟩
  · exact ⟨fun i hi => absurd hi.1 (hno i), fun _ => hno, fun _ => heq⟩
  · have hi : i < c.limit img := hleast.1.2.1
    refine ⟨fun j hj => ?_, fun hzero => ?_, fun hno => absurd hleast.1 (hno i)⟩
    · rw [hj.unique hleast, heq]
      exact ⟨rfl, fun k hk => h.bit_take hi hk, h.count_take hi, c.frame_take img i⟩
    · have hnumber : i + 1 = 0 := congrArg Prod.fst (heq.symm.trans hzero)
      omega

/-! ## Sequences of calls -/

/-- The image after the calls of a list. -/
def after (img : Image) (cs : List Call) : Image := cs.foldl (fun img c => (c.run img).2) img

/-- The numbers that the calls `c` of a list return, but for 0. -/
def handedOut (c : Call) : Image → List Call → List ℕ
  | _, [] => []
  | img, c' :: cs =>
    if c' = c ∧ (c'.run img).1 ≠ 0 then (c'.run img).1 :: handedOut c (c'.run img).2 cs
    else handedOut c (c'.run img).2 cs

theorem clearBits_set {x m : ℕ} (hi : i < m) (hclear : bit img b i = false)
    (hbits : ∀ k < m, bit img' x k = (bit img b k || decide (k = i))) :
    clearBits img' x m = clearBits img b m - 1 := by
  have hmem : i ∈ (List.range m).filter fun k => !bit img b k := by
    rw [List.mem_filter, hclear]
    exact ⟨List.mem_range.2 hi, rfl⟩
  have hnodup : ((List.range m).filter fun k => !bit img b k).Nodup := List.nodup_range.filter _
  rw [clearBits, clearBits, ← List.length_erase_of_mem hmem, hnodup.erase_eq_filter,
    List.filter_filter]
  congr 1
  refine List.filter_congr fun k hk => ?_
  rw [hbits k (List.mem_range.1 hk), Bool.not_or, Bool.and_comm]
  rfl

namespace Placed

variable (h : Placed img)
include h

/-- What a call does to an image with placed bitmaps. -/
theorem run_cases (c : Call) : (c.run img = (0, img) ∧ ∀ i, ¬ c.Free img i) ∨
    ∃ i, c.Free img i ∧ c.run img = (i + 1, c.take img i) ∧ Placed (c.take img i) := by
  rcases c.run_cases img with hfull | ⟨i, hleast, heq⟩
  · exact .inl hfull
  · exact .inr ⟨i, hleast.1, heq, (h.shape hleast.1.2.1).placed h⟩

theorem run (c : Call) : Placed (c.run img).2 := by
  rcases h.run_cases c with ⟨heq, -⟩ | ⟨i, -, heq, hplaced⟩
  · rw [heq]; exact h
  · rw [heq]; exact hplaced

theorem after (cs : List Call) : Placed (after img cs) := by
  induction cs generalizing img with
  | nil => exact h
  | cons c cs ih => exact ih (h.run c)

/-- A set bit stays set. -/
theorem bit_run (c c' : Call) (hk : k < 8192) (hset : bit img (c.bitmap img) k = true) :
    bit (c'.run img).2 (c.bitmap img) k = true := by
  rcases h.run_cases c' with ⟨heq, -⟩ | ⟨i, hfree, heq, -⟩
  · rw [heq]; exact hset
  · rw [heq]
    by_cases hc : c = c'
    · rw [hc] at hset ⊢
      rw [h.bit_take hfree.2.1 hk, hset]
      rfl
    · rw [h.bit_take_other hfree.2.1 hc hk]
      exact hset

theorem shape_run (c : Call) : SameShape img (c.run img).2 := by
  rcases h.run_cases c with ⟨heq, -⟩ | ⟨i, hfree, heq, -⟩
  · rw [heq]; exact .refl img
  · rw [heq]; exact h.shape hfree.2.1

/-- What is handed out was clear before. -/
theorem clear_of_handedOut (c : Call) (cs : List Call) (hn : n ∈ handedOut c img cs) :
    ∃ i < c.limit img, n = i + 1 ∧ bit img (c.bitmap img) i = false := by
  induction cs generalizing img with
  | nil => cases hn
  | cons c' cs ih =>
    have hshape := h.shape_run c'
    have hrest : n ∈ handedOut c (c'.run img).2 cs →
        ∃ i < c.limit img, n = i + 1 ∧ bit img (c.bitmap img) i = false := by
      intro hmem
      obtain ⟨i, hi, hni, hclear⟩ := ih (h.run c') hmem
      rw [hshape.limit_eq] at hi
      rw [hshape.bitmap_eq] at hclear
      refine ⟨i, hi, hni, ?_⟩
      by_contra hset
      rw [h.bit_run c c' (h.lt_8192 hi) (by simpa using hset)] at hclear
      cases hclear
    rw [handedOut] at hn
    split at hn
    · rename_i hc
      rcases List.mem_cons.1 hn with hn | hn
      · rcases h.run_cases c' with ⟨heq, -⟩ | ⟨i, hfree, heq, -⟩
        · exact absurd (congrArg Prod.fst heq) hc.2
        · rw [hc.1] at hfree
          exact ⟨i, hfree.2.1, hn.trans (congrArg Prod.fst heq), hfree.2.2⟩
      · exact hrest hn
    · exact hrest hn

theorem handedOut_nodup (c : Call) (cs : List Call) : (handedOut c img cs).Nodup := by
  induction cs generalizing img with
  | nil => exact List.nodup_nil
  | cons c' cs ih =>
    rw [handedOut]
    split
    · rename_i hc
      refine List.nodup_cons.2 ⟨fun hmem => ?_, ih (h.run c')⟩
      obtain ⟨j, hj, hn, hclear⟩ := (h.run c').clear_of_handedOut c cs hmem
      rw [(h.shape_run c').limit_eq] at hj
      rw [(h.shape_run c').bitmap_eq] at hclear
      rcases h.run_cases c' with ⟨heq, -⟩ | ⟨i, hfree, heq, -⟩
      · exact hc.2 (congrArg Prod.fst heq)
      · -- the bit of the number just handed out is set
        rw [heq] at hn hclear
        obtain rfl : i = j := Nat.succ_injective hn
        rw [← hc.1, h.bit_take hfree.2.1 (h.lt_8192 hfree.2.1)] at hclear
        simp at hclear
    · exact ih (h.run c')

/-- A free count that is right stays so. -/
theorem count_run (c c' : Call) (hcount : c.count img = c.clear img) :
    c.count (c'.run img).2 = c.clear (c'.run img).2 := by
  rcases h.run_cases c' with ⟨heq, -⟩ | ⟨i, hfree, heq, -⟩
  · rw [heq]; exact hcount
  · have hi := hfree.2.1
    have hshape := h.shape hi
    have hlimit := h.limit c
    rw [heq, Call.clear, hshape.bitmap_eq, hshape.limit_eq]
    by_cases hc : c = c'
    · subst hc
      have hset := clearBits_set hi hfree.2.2 fun k hk => h.bit_take hi (h.lt_8192 hk)
      have hpos : 0 < c.clear img := by
        refine List.length_pos_of_mem (List.mem_filter.2 ⟨List.mem_range.2 hi, ?_⟩)
        rw [hfree.2.2]
        rfl
      have hle : c.clear img ≤ c.limit img := by
        have hlength := List.length_filter_le (fun i => !bit img (c.bitmap img) i)
          (List.range (c.limit img))
        rw [List.length_range] at hlength
        exact hlength
      rw [hset, h.count_take hi, hcount]
      show _ = c.clear img - 1
      omega
    · rw [h.count_take_other hi hc, hcount]
      exact (clearBits_congr fun k hk => h.bit_take_other hi hc (h.lt_8192 hk)).symm

theorem count_after (c : Call) (cs : List Call) (hcount : c.count img = c.clear img) :
    c.count (Ext2.after img cs) = c.clear (Ext2.after img cs) := by
  induction cs generalizing img with
  | nil => exact hcount
  | cons c' cs ih => exact ih (h.run c') (h.count_run c c' hcount)

end Placed

/-- **Allocation is exact.** After any calls the next one is exact, no number has been handed out
twice, and a free count that was that of the clear bits still is. -/
theorem calls_exact (h : Placed img) (cs : List Call) :
    (∀ c, Exact c (after img cs)) ∧ (∀ c, (handedOut c img cs).Nodup) ∧
      ∀ c : Call, c.count img = c.clear img → c.count (after img cs) = c.clear (after img cs) :=
  ⟨(h.after cs).exactCall, fun c => h.handedOut_nodup c cs, fun c => h.count_after c cs⟩

theorem exImage_placed : Placed exImage where
  limit c := by cases c <;> decide +kernel
  inside c := by cases c <;> decide +kernel
  super c := by cases c <;> decide +kernel
  descriptor c := by cases c <;> decide +kernel
  apart := by decide +kernel

theorem calls_exact_two : handedOut .block exImage [.block, .inode, .block] = [12, 13] ∧
    (handedOut .block exImage [.block, .inode, .block]).Nodup :=
  ⟨by decide +kernel, (calls_exact exImage_placed [.block, .inode, .block]).2.1 .block⟩

end Cscc69.Ext2
