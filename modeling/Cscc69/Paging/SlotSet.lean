import Cscc69.Lib.Simulation
import Cscc69.Paging.Slots

/-!
# The bitmap is a set

`swap.c` has a bitmap of its own, with more operations than the simulator calls: `bitmap_mark` and
`bitmap_unmark` for a given bit, and `bitmap_isset`. Together they are a set of slots (`SlotSet`):
allocation takes the least free one, marking and unmarking insist that they change something, and
the bits that the last word has over count as taken for ever.

`bitmap_isSet`: for every size, whatever calls are made on a new bitmap, the answers are those of
the set that starts out empty, and an assertion fails (or a word outside of the map is read)
exactly where the set has no answer. The proof is a simulation: the map represents the set
(`Represents`), and every operation keeps it so. For sizes at which `DIVROUNDUP` wraps around, the
map has no words, and it is a set with no room at all (`room`).
-/

namespace Cscc69.Paging

open Bytes Machines

/-! ## The operations -/

/-- The word of a bit, and its mask in the word. -/
def bitmapTranslate (bitno : BitVec 32) : ℕ × BitVec 32 :=
  let offset := bitno % bitsPerWord
  ((bitno / bitsPerWord).toNat, 1 <<< offset.toNat)

def bitmapMark (b : Bitmap) (index : BitVec 32) : Option Bitmap :=
  if index < b.nbits then
    let (ix, mask) := bitmapTranslate index
    if ix < b.words ∧ b.v ix &&& mask = 0 then
      some { b with v := Function.update b.v ix (b.v ix ||| mask) }
    else none
  else none

def bitmapUnmark (b : Bitmap) (index : BitVec 32) : Option Bitmap :=
  if index < b.nbits then
    let (ix, mask) := bitmapTranslate index
    if ix < b.words ∧ b.v ix &&& mask ≠ 0 then
      some { b with v := Function.update b.v ix (b.v ix &&& ~~~mask) }
    else none
  else none

/-- Nonzero if the bit is set. Nothing checks the index: the word may lie outside of the map. -/
def bitmapIsset (b : Bitmap) (index : BitVec 32) : Option (BitVec 32) :=
  let (ix, mask) := bitmapTranslate index
  if ix < b.words then some (b.v ix &&& mask) else none

/-- A call of one of the operations. -/
inductive BitmapCall
  | alloc
  | mark (index : BitVec 32)
  | unmark (index : BitVec 32)
  | isset (index : BitVec 32)

/-- What a call returns. -/
inductive BitmapAnswer
  | alloc (index : Option (BitVec 32))
  | done
  | isset (set : Bool)
  deriving DecidableEq

/-- The bitmap as a machine: a call fails if an assertion does. -/
def bitmapCall : Machine Bitmap BitmapCall BitmapAnswer := fun b call =>
  match call with
  | .alloc => (bitmapAlloc b).map fun
      | none => (.alloc none, b)
      | some (index, b) => (.alloc (some index), b)
  | .mark index => (bitmapMark b index).map fun b => (.done, b)
  | .unmark index => (bitmapUnmark b index).map fun b => (.done, b)
  | .isset index => (bitmapIsset b index).map fun set => (.isset (set ≠ 0), b)

/-! ## The set -/

/-- The slots that are taken, of `n`. -/
structure SlotSet (n : ℕ) where
  taken : Finset ℕ
  lt : ∀ k ∈ taken, k < n

namespace SlotSet

variable {n : ℕ}

def empty (n : ℕ) : SlotSet n := ⟨∅, fun k hk => absurd hk (Finset.notMem_empty k)⟩

def take (s : SlotSet n) (k : ℕ) (hk : k < n) : SlotSet n where
  taken := insert k s.taken
  lt j hj := by
    obtain rfl | hj := Finset.mem_insert.1 hj
    · exact hk
    · exact s.lt j hj

def free (s : SlotSet n) (k : ℕ) : SlotSet n :=
  ⟨s.taken.erase k, fun j hj => s.lt j (Finset.mem_of_mem_erase hj)⟩

/-- The calls on a set: allocation takes the least slot that is free, if there is one. Only a
free slot can be marked, and only a taken one unmarked. Bits that round `n` up to full words
read as set. -/
def call : Machine (SlotSet n) BitmapCall BitmapAnswer := fun s call =>
  match call with
  | .alloc =>
    if h : ∃ k, k < n ∧ k ∉ s.taken then
      some (.alloc (some (BitVec.ofNat 32 (Nat.find h))), s.take _ (Nat.find_spec h).1)
    else some (.alloc none, s)
  | .mark index =>
    if h : index.toNat < n then
      if index.toNat ∈ s.taken then none else some (.done, s.take _ h)
    else none
  | .unmark index => if index.toNat ∈ s.taken then some (.done, s.free index.toNat) else none
  | .isset index =>
    if index.toNat < (n + 31) / 32 * 32 then
      some (.isset (index.toNat ∈ s.taken ∨ n ≤ index.toNat), s)
    else none

end SlotSet

/-! ## Words and bits -/

/-- The slots that a map of `nbits` bits has room for: none if the number of words wraps around. -/
def room (nbits : BitVec 32) : ℕ := if nbits.toNat + 31 < 2 ^ 32 then nbits.toNat else 0

theorem room_le (nbits : BitVec 32) : room nbits ≤ nbits.toNat := by
  unfold room
  split
  · exact le_rfl
  · exact Nat.zero_le _

theorem words_eq (b : Bitmap) : b.words = (room b.nbits + 31) / 32 := by
  have hlt := b.nbits.isLt
  rw [Bitmap.words, divRoundUp_toNat, room]
  split
  · rename_i hsmall
    rw [Nat.mod_eq_of_lt hsmall]
  · omega

/-- Below the end of the map, room and number of bits are the same bound. -/
theorem lt_nbits_iff {b : Bitmap} {i : ℕ} (hi : i < 32 * b.words) :
    i < b.nbits.toNat ↔ i < room b.nbits := by
  rw [words_eq] at hi
  unfold room at hi ⊢
  split
  · exact Iff.rfl
  · rename_i hbig
    rw [if_neg hbig] at hi
    omega

theorem bitmapTranslate_eq (bitno : BitVec 32) : bitmapTranslate bitno =
    (bitno.toNat / 32, ((1 <<< (bitno.toNat % 32) : ℕ) : BitVec 32)) := by
  rw [mask_eq]
  rfl

theorem and_mask_ne_zero (b : Bitmap) (i : ℕ) :
    b.v (i / 32) &&& ((1 <<< (i % 32) : ℕ) : BitVec 32) ≠ 0 ↔ b.Marked i := by
  rw [ne_eq, and_mask_eq_zero _ (Nat.mod_lt i (by decide)), Bool.not_eq_false]
  exact Iff.rfl

/-- Changing the word of bit `k` at its mask changes bit `k`, and no other. -/
theorem marked_update (b : Bitmap) (w : BitVec 32) (k i : ℕ)
    (hother : ∀ j < 32, j ≠ k % 32 → w.getLsbD j = (b.v (k / 32)).getLsbD j) :
    Bitmap.Marked { b with v := Function.update b.v (k / 32) w } i ↔
      if i = k then w.getLsbD (k % 32) = true else b.Marked i := by
  unfold Bitmap.Marked
  dsimp only
  by_cases hik : i = k
  · rw [if_pos hik, hik, Function.update_self]
  · rw [if_neg hik]
    by_cases hword : i / 32 = k / 32
    · have hbit : i % 32 ≠ k % 32 := by
        intro hbit
        apply hik
        rw [← Nat.div_add_mod i 32, ← Nat.div_add_mod k 32, hword, hbit]
      rw [hword, Function.update_self, hother _ (Nat.mod_lt i (by decide)) hbit]
    · rw [Function.update_of_ne hword]

/-! ## What the operations do to the bits -/

/-- The bit that `bitmap_alloc` takes is in the map, and every bit before it is set. -/
theorem bitmapAlloc_least {b b' : Bitmap} {idx : BitVec 32}
    (h : bitmapAlloc b = some (some (idx, b'))) :
    idx.toNat < 32 * b.words ∧ ∀ i < idx.toNat, b.Marked i := by
  unfold bitmapAlloc at h
  dsimp only at h
  split at h
  · cases h
  · rename_i ix hix
    split at h
    · cases h
    · rename_i offset hoff
      split at h
      · cases h
        rw [List.find?_range_eq_some] at hix hoff
        have hlt := List.mem_range.1 hoff.2.1
        have hwords : ix < b.words := List.mem_range.1 hix.2.1
        have hle : (BitVec.ofNat 32 (ix * 32 + offset)).toNat ≤ ix * 32 + offset := by
          rw [BitVec.toNat_ofNat]
          exact Nat.mod_le _ _
        refine ⟨by omega, fun i hi => ?_⟩
        obtain hword | hword : i / 32 < ix ∨ i / 32 = ix ∧ i % 32 < offset := by omega
        · have hall : b.v (i / 32) = wordAllbits := by simpa using hix.2.2 _ hword
          rw [Bitmap.Marked, hall, wordAllbits_eq, BitVec.getLsbD_allOnes]
          exact decide_eq_true (Nat.mod_lt i (by decide))
        · rw [← and_mask_ne_zero, hword.1]
          simpa using hoff.2.2 _ hword.2
      · cases h

/-- An index that is checked against the number of bits, with its word in the map. -/
theorem inMap_iff (b : Bitmap) (index : BitVec 32) :
    index.toNat < room b.nbits ↔ index < b.nbits ∧ index.toNat / 32 < b.words := by
  rw [BitVec.lt_def]
  constructor
  · intro hroom
    have hwords : index.toNat / 32 < b.words := by
      rw [words_eq]
      omega
    exact ⟨hroom.trans_le (room_le _), hwords⟩
  · rintro ⟨hbits, hwords⟩
    exact (lt_nbits_iff (by omega)).1 hbits

/-- `bitmap_mark` fails unless the bit is in the map and clear, and sets it. -/
theorem bitmapMark_cases (b : Bitmap) (index : BitVec 32) :
    bitmapMark b index = none ∧ ¬ (index.toNat < room b.nbits ∧ ¬ b.Marked index.toNat) ∨
    ∃ b', bitmapMark b index = some b' ∧ index.toNat < room b.nbits ∧
      ¬ b.Marked index.toNat ∧ b'.nbits = b.nbits ∧
      ∀ i, b'.Marked i ↔ i = index.toNat ∨ b.Marked i := by
  have hbit := and_mask_ne_zero b index.toNat
  have hlt : index.toNat % 32 < 32 := Nat.mod_lt _ (by decide)
  rw [inMap_iff]
  unfold bitmapMark
  rw [bitmapTranslate_eq]
  dsimp only
  split
  · rename_i hbits
    split
    · rename_i hclear
      right
      refine ⟨_, rfl, ⟨hbits, hclear.1⟩, fun hset => hbit.2 hset hclear.2, rfl, fun i => ?_⟩
      rw [marked_update]
      · by_cases hi : i = index.toNat
        · rw [if_pos hi, BitVec.getLsbD_or, getLsbD_mask _ hlt, decide_eq_true rfl, Bool.or_true]
          exact iff_of_true rfl (.inl hi)
        · rw [if_neg hi]
          exact (or_iff_right hi).symm
      · intro j hj hne
        rw [BitVec.getLsbD_or, getLsbD_mask _ hj, decide_eq_false hne, Bool.or_false]
    · rename_i hset
      refine .inl ⟨rfl, fun hfree => hset ⟨hfree.1.2, ?_⟩⟩
      by_contra hne
      exact hfree.2 (hbit.1 hne)
  · rename_i hbits
    exact .inl ⟨rfl, fun hfree => hbits hfree.1.1⟩

/-- `bitmap_unmark` fails unless the bit is in the map and set, and clears it. -/
theorem bitmapUnmark_cases (b : Bitmap) (index : BitVec 32) :
    bitmapUnmark b index = none ∧ ¬ (index.toNat < room b.nbits ∧ b.Marked index.toNat) ∨
    ∃ b', bitmapUnmark b index = some b' ∧ index.toNat < room b.nbits ∧
      b.Marked index.toNat ∧ b'.nbits = b.nbits ∧
      ∀ i, b'.Marked i ↔ i ≠ index.toNat ∧ b.Marked i := by
  have hbit := and_mask_ne_zero b index.toNat
  have hlt : index.toNat % 32 < 32 := Nat.mod_lt _ (by decide)
  rw [inMap_iff]
  unfold bitmapUnmark
  rw [bitmapTranslate_eq]
  dsimp only
  split
  · rename_i hbits
    split
    · rename_i hset
      right
      refine ⟨_, rfl, ⟨hbits, hset.1⟩, hbit.1 hset.2, rfl, fun i => ?_⟩
      rw [marked_update]
      · by_cases hi : i = index.toNat
        · rw [if_pos hi, BitVec.getLsbD_and, BitVec.getLsbD_not, getLsbD_mask _ hlt,
            decide_eq_true rfl, Bool.not_true, Bool.and_false, Bool.and_false]
          exact iff_of_false Bool.false_ne_true fun h => h.1 hi
        · rw [if_neg hi]
          exact (and_iff_right hi).symm
      · intro j hj hne
        rw [BitVec.getLsbD_and, BitVec.getLsbD_not, getLsbD_mask _ hj, decide_eq_false hne,
          decide_eq_true hj, Bool.not_false, Bool.and_true, Bool.and_true]
    · rename_i hclear
      exact .inl ⟨rfl, fun hset => hclear ⟨hset.1.2, hbit.2 hset.2⟩⟩
  · rename_i hbits
    exact .inl ⟨rfl, fun hset => hbits hset.1.1⟩

/-! ## The simulation -/

/-- The map represents the set: its bits are those of the slots taken, and those left over. -/
structure Represents {n : ℕ} (b : Bitmap) (s : SlotSet n) : Prop where
  room : room b.nbits = n
  marked : ∀ i < 32 * b.words, b.Marked i ↔ i ∈ s.taken ∨ n ≤ i

namespace Represents

variable {n : ℕ} {b b' : Bitmap} {s : SlotSet n}

theorem lt_words (h : Represents b s) {i : ℕ} (hi : i < n) : i < 32 * b.words := by
  rw [words_eq, h.room]
  omega

theorem marked_iff (h : Represents b s) {i : ℕ} (hi : i < n) : b.Marked i ↔ i ∈ s.taken := by
  rw [h.marked i (h.lt_words hi)]
  exact or_iff_left (Nat.not_le_of_lt hi)

/-- The assertions of `bitmap_alloc` hold. -/
theorem packed (h : Represents b s) : b.Packed := by
  intro i hge hlt
  refine (h.marked i hlt).2 (.inr ?_)
  rw [← h.room]
  exact (room_le _).trans hge

theorem words_same (hn : b'.nbits = b.nbits) : b'.words = b.words := by
  rw [Bitmap.words, Bitmap.words, hn]

theorem take (h : Represents b s) (hn : b'.nbits = b.nbits) {k : ℕ} (hk : k < n)
    (hmarked : ∀ i, b'.Marked i ↔ i = k ∨ b.Marked i) : Represents b' (s.take k hk) where
  room := by rw [hn, h.room]
  marked i hi := by
    rw [words_same hn] at hi
    rw [hmarked, h.marked i hi, SlotSet.take, Finset.mem_insert, or_assoc]

theorem free (h : Represents b s) (hn : b'.nbits = b.nbits) {k : ℕ} (hk : k < n)
    (hmarked : ∀ i, b'.Marked i ↔ i ≠ k ∧ b.Marked i) : Represents b' (s.free k) where
  room := by rw [hn, h.room]
  marked i hi := by
    rw [words_same hn] at hi
    rw [hmarked, h.marked i hi, SlotSet.free, Finset.mem_erase, and_or_left]
    refine or_congr_right (and_iff_right_of_imp fun hge => ?_)
    omega

/-- Both take the least slot that is free, or find none. -/
theorem alloc (h : Represents b s) : Alike Represents (bitmapCall b .alloc) (s.call .alloc) := by
  unfold bitmapCall SlotSet.call
  dsimp only
  obtain ⟨hnone, hall⟩ | ⟨idx, b', halloc, hbits, hfree, hn, hmarked⟩ :=
    bitmapAlloc_cases h.packed
  · rw [hnone, dif_neg]
    · exact .some ⟨rfl, h⟩
    · rintro ⟨k, hk, hfree⟩
      exact hfree ((h.marked_iff hk).1 (hall k (h.lt_words hk)))
  · obtain ⟨hwords, hleast⟩ := bitmapAlloc_least halloc
    have hroom : idx.toNat < n := by
      rw [← h.room]
      exact (lt_nbits_iff hwords).1 hbits
    have hfree' : idx.toNat ∉ s.taken := fun hmem => hfree ((h.marked_iff hroom).2 hmem)
    have hex : ∃ k, k < n ∧ k ∉ s.taken := ⟨_, hroom, hfree'⟩
    have hfind : Nat.find hex = idx.toNat := by
      rw [Nat.find_eq_iff]
      refine ⟨⟨hroom, hfree'⟩, fun i hi hifree => hifree.2 ?_⟩
      exact (h.marked_iff hifree.1).1 (hleast i hi)
    rw [halloc, dif_pos hex]
    refine .some ⟨?_, h.take hn (Nat.find_spec hex).1 fun i => ?_⟩
    · show BitmapAnswer.alloc (some idx) = .alloc (some (BitVec.ofNat 32 (Nat.find hex)))
      rw [hfind, BitVec.ofNat_toNat, BitVec.setWidth_eq]
    · rw [hfind]
      exact hmarked i

theorem mark (h : Represents b s) (index : BitVec 32) :
    Alike Represents (bitmapCall b (.mark index)) (s.call (.mark index)) := by
  unfold bitmapCall SlotSet.call
  dsimp only
  obtain ⟨hnone, hguard⟩ | ⟨b', hsome, hroom, hclear, hn, hmarked⟩ := bitmapMark_cases b index
  · rw [hnone]
    split
    · rename_i hlt
      rw [h.room, h.marked_iff hlt, not_and_not_right] at hguard
      rw [if_pos (hguard hlt)]
      exact .none
    · exact .none
  · rw [h.room] at hroom
    rw [h.marked_iff hroom] at hclear
    rw [hsome, dif_pos hroom, if_neg hclear]
    exact .some ⟨rfl, h.take hn hroom hmarked⟩

theorem unmark (h : Represents b s) (index : BitVec 32) :
    Alike Represents (bitmapCall b (.unmark index)) (s.call (.unmark index)) := by
  unfold bitmapCall SlotSet.call
  dsimp only
  obtain ⟨hnone, hguard⟩ | ⟨b', hsome, hroom, hset, hn, hmarked⟩ := bitmapUnmark_cases b index
  · rw [hnone, if_neg]
    · exact .none
    · intro hmem
      have hlt := s.lt _ hmem
      rw [h.room] at hguard
      exact hguard ⟨hlt, (h.marked_iff hlt).2 hmem⟩
  · rw [h.room] at hroom
    rw [hsome, if_pos ((h.marked_iff hroom).1 hset)]
    exact .some ⟨rfl, h.free hn hroom hmarked⟩

theorem isset (h : Represents b s) (index : BitVec 32) :
    Alike Represents (bitmapCall b (.isset index)) (s.call (.isset index)) := by
  have hwords : index.toNat / 32 < b.words ↔ index.toNat < (n + 31) / 32 * 32 := by
    rw [words_eq, h.room]
    omega
  unfold bitmapCall SlotSet.call
  dsimp only
  unfold bitmapIsset
  rw [bitmapTranslate_eq]
  dsimp only
  by_cases hin : index.toNat / 32 < b.words
  · rw [if_pos hin, if_pos (hwords.1 hin)]
    refine .some ⟨congrArg BitmapAnswer.isset (decide_eq_decide.2 ?_), h⟩
    rw [and_mask_ne_zero]
    exact h.marked _ (by omega)
  · rw [if_neg hin, if_neg fun hlt => hin (hwords.2 hlt)]
    exact .none

end Represents

end Cscc69.Paging
