import Cscc69.Ext2.Tree
import Mathlib.Data.List.Find

/-!
# The last link

When the count of a file's inode falls to 0, `remove_link` should clear the inode's bit and set
the deletion time; before that it should change the count only. It gets both wrong. The time is
set just when the bit is not cleared, and the bit is looked up in `inum`: the loop compares
`inum[i]` with the inode, but clears bit `i`. As `inum` lists the inodes in use one after the
other, the inode stands further to the front there than in the bitmap (`usedInodes_getD`).

Main result: `removeLink_iff`.
-/

namespace Cscc69.Ext2

open Bytes Records

variable {img : Image} {n : ℕ} {t : Tables} {env : Env}

/-! ## What is promised -/

/-- `img'` is `img` with one link less to `n`. The inode is freed with the last one. -/
structure FreesRight (env : Env) (img img' : Image) (n : ℕ) : Prop where
  links : iLinksCount img' n = iLinksCount img n - 1
  bits : ∀ i < 8192, bit img' (bgInodeBitmap img) i =
    (bit img (bgInodeBitmap img) i && !decide (iLinksCount img n = 1 ∧ i = n - 1))
  blocks : ∀ i < 8192, bit img' (bgBlockBitmap img) i = bit img (bgBlockBitmap img) i
  freeInodes : bgFreeInodesCount img' =
    bgFreeInodesCount img + if iLinksCount img n = 1 then 1 else 0
  freeBlocks : bgFreeBlocksCount img' = bgFreeBlocksCount img
  time : iDtime img' n = if iLinksCount img n = 1 then env.now % 2 ^ 32 else iDtime img n

/-- The loop over the bitmap stops at the inode's own bit. It can do so only for inodes beyond the
32 of the array: the words after the array decide, and no bit before may be taken for it. -/
def StopsAtBit (env : Env) (t : Tables) (img : Image) (n : ℕ) : Prop :=
  32 < n ∧ env.beyond (n - 33) = n - 1 ∧
    ∀ i < n - 1, bit img (bgInodeBitmap img) i = true → t.inumAt env i ≠ n - 1

instance (env : Env) (t : Tables) (img : Image) (n : ℕ) :
    Decidable (StopsAtBit env t img n) := by
  unfold StopsAtBit; infer_instance

/-! ## The place in `inum` -/

/-- An increasing list of numbers from `k` on grows at least as fast as the places. -/
theorem getD_of_pairwise {l : List ℕ} (hl : l.Pairwise (· < ·)) {k : ℕ} (hall : ∀ i ∈ l, k ≤ i)
    (j : ℕ) : l.getD j 0 = 0 ∨ k + j ≤ l.getD j 0 := by
  induction l generalizing k j with
  | nil => exact .inl rfl
  | cons i l ih =>
    obtain ⟨hi, hl⟩ := List.pairwise_cons.1 hl
    have hk := hall i List.mem_cons_self
    cases j with
    | zero => exact .inr hk
    | succ j =>
      have hrest : ∀ m ∈ l, k + 1 ≤ m := fun m hm => hk.trans_lt (hi m hm)
      rw [List.getD_cons_succ, show k + (j + 1) = k + 1 + j by omega]
      exact ih hl hrest j

/-- The inodes in use stand closer together in `inum` than in the bitmap. -/
theorem usedInodes_getD (img : Image) (j : ℕ) :
    (usedInodes img).getD (j + 1) 0 = 0 ∨ 11 + j ≤ (usedInodes img).getD (j + 1) 0 := by
  rw [usedInodes, List.getD_cons_succ]
  refine getD_of_pairwise (List.pairwise_lt_range.filter _) (fun i hi => ?_) j
  have htest := (List.mem_filter.1 hi).2
  rw [Bool.and_eq_true, decide_eq_true_eq] at htest
  exact htest.2

/-- No inode has its own index at its place in the array. -/
theorem inumAt_ne (hinit : init img = some t) (hn : 1 ≤ n) (hle : n ≤ 32) :
    t.inumAt env (n - 1) ≠ n - 1 := by
  rw [Tables.inumAt, if_pos (by omega), (init_some hinit).1]
  obtain ⟨j, rfl⟩ := Nat.exists_eq_add_of_le' hn
  rw [Nat.add_sub_cancel]
  cases j with
  | zero =>
    show (1 : ℕ) ≠ 0
    decide
  | succ j =>
    have hplace := usedInodes_getD img j
    omega

/-! ## `remove_link` -/

/-- The index that the loop of `remove_link` stops at. -/
def foundBit (env : Env) (t : Tables) (img : Image) (n : ℕ) : Option ℕ :=
  (List.range (sInodesCount img)).find? fun i =>
    bit img (bgInodeBitmap img) i && t.inumAt env i == n - 1

theorem foundBit_iff (hinit : init img = some t) (huse : inUse img n = true) :
    foundBit env t img n = some (n - 1) ↔ StopsAtBit env t img n := by
  obtain ⟨h₁, hle, hbit⟩ := inUse_iff.1 huse
  simp only [foundBit, List.find?_range_eq_some, List.mem_range, Bool.and_eq_true, beq_iff_eq,
    Bool.not_eq_true', Bool.and_eq_false_iff, beq_eq_false_iff_ne, StopsAtBit]
  constructor
  · intro h
    obtain ⟨⟨-, hat⟩, -, hbefore⟩ := h
    have hlt : 32 < n := by
      by_contra hge
      exact inumAt_ne hinit h₁ (by omega) hat
    refine ⟨hlt, ?_, fun i hi hmark => (hbefore i hi).resolve_left (by rw [hmark]; decide)⟩
    rw [← hat, Tables.inumAt, if_neg (by omega), show n - 33 = n - 1 - 32 by omega]
  · intro h
    obtain ⟨hlt, hat, hbefore⟩ := h
    refine ⟨⟨hbit, ?_⟩, by omega, fun i hi => ?_⟩
    · rw [Tables.inumAt, if_neg (by omega), show n - 1 - 32 = n - 33 by omega, hat]
    · by_cases hmark : bit img (bgInodeBitmap img) i = true
      · exact .inr (hbefore i hi hmark)
      · exact .inl (Bool.eq_false_iff.2 hmark)

/-- The last link: the bit that is found is cleared, or the time is set. -/
theorem removeLink_last (hg : Geometry img) (huse : inUse img n = true)
    (hlast : iLinksCount img n = 1) : removeLink env t img n =
      match foundBit env t img n with
      | some i => setBgFreeInodesCount (clearBit (decrement img n) (bgInodeBitmap img) i)
          (bgFreeInodesCount img + 1)
      | none => setIDtime (decrement img n) n env.now := by
  obtain ⟨h₁, hle, -⟩ := inUse_iff.1 huse
  have hcount := hg.inodes
  have hs := decrement_shape hg h₁ hle
  have hdec : setILinksCount img n (iLinksCount img n - 1) = decrement img n := by
    rw [decrement, if_pos (by omega)]
  have hzero : iLinksCount (decrement img n) n = 0 := by
    rw [decrement_links hg h₁ hle, hlast]
  have hbit : ∀ i < 8192, bit (decrement img n) (bgInodeBitmap img) i =
      bit img (bgInodeBitmap img) i := fun i hi => bit_eq (decrement_frame img n)
    (disjoint_inodeField_blockBytes h₁ hle (by decide) hg.inodeBitmap_table).symm hi
  have hfind : (List.range (sInodesCount img)).find? (fun i =>
      bit (decrement img n) (bgInodeBitmap img) i &&
        t.inumAt env i == (n + 0xFFFFFFFF) % 2 ^ 32) = foundBit env t img n := by
    refine List.find?_congr fun i hi => ?_
    have hlt := List.mem_range.1 hi
    rw [hbit i (by omega), show (n + 0xFFFFFFFF) % 2 ^ 32 = n - 1 by omega]
  rw [removeLink, if_pos (by omega), hdec]
  have hfree : bgFreeInodesCount (decrement img n) = bgFreeInodesCount img :=
    (decrement_frame img n).load_eq fun i hi hlt => Set.disjoint_right.1
      (disjoint_inodeField_freeCounts hg h₁ hle (by decide)) (Set.mem_Ico.2 ⟨by omega, by omega⟩)
  have hclear : ∀ i < sInodesCount img,
      bgFreeInodesCount (clearBit (decrement img n) (bgInodeBitmap img) i) =
        bgFreeInodesCount img := by
    intro i hi
    rw [← hfree]
    exact (frame_clearBit subset_rfl (.refl _ _) (by omega)).load_eq fun j hj hlt =>
      Set.disjoint_right.1 (disjoint_blockBytes_freeCounts hg.inodeBitmap)
        (Set.mem_Ico.2 ⟨by omega, by omega⟩)
  simp only [hzero, if_true, hs.inodes, hs.inodeBitmap, hfind]
  cases hfound : foundBit env t img n with
  | none => rfl
  | some i =>
    have hlt := List.mem_range.1 (List.mem_of_find?_eq_some hfound)
    simp only [hclear i hlt]

theorem removeLink_more (hg : Geometry img) (huse : inUse img n = true)
    (hmore : 1 < iLinksCount img n) :
    removeLink env t img n = setIDtime (decrement img n) n env.now := by
  obtain ⟨h₁, hle, -⟩ := inUse_iff.1 huse
  have hdec : setILinksCount img n (iLinksCount img n - 1) = decrement img n := by
    rw [decrement, if_pos (by omega)]
  have hzero : iLinksCount (decrement img n) n ≠ 0 := by
    rw [decrement_links hg h₁ hle]
    omega
  rw [removeLink, if_pos (by omega), hdec]
  simp only [hzero, if_false]

/-! ## What it leaves -/

/-- What is left of `img` when a link to `n` is taken, apart from the bit that is cleared, the
number of free inodes and the deletion time. -/
structure LinkTaken (img img' : Image) (n : ℕ) (cleared : Option ℕ) (count time : ℕ) : Prop where
  links : iLinksCount img' n = iLinksCount img n - 1
  bits : ∀ i < 8192, bit img' (bgInodeBitmap img) i =
    (bit img (bgInodeBitmap img) i && !decide (cleared = some i))
  blocks : ∀ i < 8192, bit img' (bgBlockBitmap img) i = bit img (bgBlockBitmap img) i
  freeInodes : bgFreeInodesCount img' = count
  freeBlocks : bgFreeBlocksCount img' = bgFreeBlocksCount img
  time : iDtime img' n = time

theorem linkTaken_time (hg : Geometry img) (huse : inUse img n = true) :
    LinkTaken img (setIDtime (decrement img n) n env.now) n none (bgFreeInodesCount img)
      (env.now % 2 ^ 32) := by
  obtain ⟨h₁, hle, -⟩ := inUse_iff.1 huse
  have hs := decrement_shape hg h₁ hle
  have htime : Frame (inodeField img n 20 4) (decrement img n)
      (setIDtime (decrement img n) n env.now) :=
    hs.inodeField_eq n 20 4 ▸
      frame_storeInode subset_rfl (.refl _ _) (.refl _) (by decide) (by decide)
  have hs' : SameShape (decrement img n) (setIDtime (decrement img n) n env.now) :=
    .of_frame htime (disjoint_inodeField_header hg h₁ hle (by decide))
  have hframe : Frame (inodeField img n 20 8) img (setIDtime (decrement img n) n env.now) :=
    frame_storeInode subset_rfl (decrement_frame img n) hs (by decide) (by decide)
  have hcounts : ∀ a, 2060 ≤ a → a + 2 ≤ 2064 →
      load (setIDtime (decrement img n) n env.now) a 2 = load img a 2 := fun a ha ha' =>
    hframe.load_eq fun i hi hlt => Set.disjoint_right.1
      (disjoint_inodeField_freeCounts hg h₁ hle (by decide)) (Set.mem_Ico.2 ⟨by omega, by omega⟩)
  constructor
  · rw [← decrement_links hg h₁ hle]
    refine iLinksCount_eq htime hs' ?_
    rw [hs.inodeField_eq]
    exact disjoint_inodeField h₁ h₁ (by decide) (by decide) (.inr (.inr (by decide)))
  · intro i hi
    rw [bit_eq hframe (disjoint_inodeField_blockBytes h₁ hle (by decide)
      hg.inodeBitmap_table).symm hi]
    simp
  · exact fun i hi => bit_eq hframe (disjoint_inodeField_blockBytes h₁ hle (by decide)
      hg.blockBitmap_table).symm hi
  · exact hcounts 2062 (by decide) (by decide)
  · exact hcounts 2060 (by decide) (by decide)
  · rw [iDtime, hs'.inodeAddr_eq, setIDtime, load_store]
    rfl

theorem linkTaken_bit (hg : Geometry img) (huse : inUse img n = true) {i : ℕ}
    (hi : i < sInodesCount img) (v : ℕ) :
    LinkTaken img (setBgFreeInodesCount (clearBit (decrement img n) (bgInodeBitmap img) i) v) n
      (some i) (v % 2 ^ 16) (iDtime img n) := by
  obtain ⟨h₁, hle, -⟩ := inUse_iff.1 huse
  have hcount := hg.inodes
  have hs := decrement_shape hg h₁ hle
  have hdec : Frame (inodeField img n 26 2) img (decrement img n) := by
    unfold decrement
    split
    · exact frame_storeInode subset_rfl (.refl _ _) (.refl _) (by decide) (by decide)
    · exact .refl _ _
  have hclear : Frame (blockBytes (bgInodeBitmap img)) (decrement img n)
      (clearBit (decrement img n) (bgInodeBitmap img) i) :=
    frame_clearBit subset_rfl (.refl _ _) (by omega)
  have hmark : Frame (blockBytes (bgInodeBitmap img) ∪ freeCounts) (decrement img n)
      (setBgFreeInodesCount (clearBit (decrement img n) (bgInodeBitmap img) i) v) :=
    frame_setBgFreeInodesCount Set.subset_union_right (hclear.mono Set.subset_union_left) v
  have hs' : SameShape (decrement img n)
      (setBgFreeInodesCount (clearBit (decrement img n) (bgInodeBitmap img) i) v) :=
    .of_frame hmark (Set.disjoint_union_left.2
      ⟨disjoint_blockBytes_header hg.inodeBitmap, disjoint_freeCounts_header⟩)
  have hinode : ∀ off len, off + len ≤ 128 → Disjoint (inodeField (decrement img n) n off len)
      (blockBytes (bgInodeBitmap img) ∪ freeCounts) := by
    intro off len hlen
    rw [hs.inodeField_eq]
    exact Set.disjoint_union_right.2
      ⟨disjoint_inodeField_blockBytes h₁ hle hlen hg.inodeBitmap_table,
        disjoint_inodeField_freeCounts hg h₁ hle hlen⟩
  constructor
  · rw [← decrement_links hg h₁ hle]
    exact iLinksCount_eq hmark hs' (hinode 26 2 (by decide))
  · intro k hk
    rw [bit_setBgFreeInodesCount hg.inodeBitmap, bit_clearBit, bit_eq hdec
      (disjoint_inodeField_blockBytes h₁ hle (by decide) hg.inodeBitmap_table).symm hk]
    simp only [Option.some.injEq, eq_comm]
  · intro k hk
    rw [bit_setBgFreeInodesCount hg.blockBitmap,
      bit_eq hclear (disjoint_blockBytes hg.bitmaps) hk,
      bit_eq hdec (disjoint_inodeField_blockBytes h₁ hle (by decide) hg.blockBitmap_table).symm hk]
  · rw [bgFreeInodesCount, setBgFreeInodesCount, load_store]
    rfl
  · rw [bgFreeBlocksCount, setBgFreeInodesCount, load_store_of_disjoint (by decide)]
    have hload : ∀ {P : Set ℕ} {im im' : Image}, Frame P im im' → Disjoint P freeCounts →
        load im' 2060 2 = load im 2060 2 := fun h hP => h.load_eq fun j hj hlt =>
      Set.disjoint_right.1 hP (Set.mem_Ico.2 ⟨by omega, by omega⟩)
    rw [hload hclear (disjoint_blockBytes_freeCounts hg.inodeBitmap),
      hload hdec (disjoint_inodeField_freeCounts hg h₁ hle (by decide))]
    rfl
  · rw [iDtime, load_inodeField hmark hs' (hinode 20 4 (by decide)),
      load_inodeField hdec hs
        (disjoint_inodeField h₁ h₁ (by decide) (by decide) (.inr (.inl (by decide))))]
    rfl

/-- The bit that `remove_link` clears. -/
def clearedBit (env : Env) (t : Tables) (img : Image) (n : ℕ) : Option ℕ :=
  if iLinksCount img n = 1 then foundBit env t img n else none

theorem clearedBit_some {i : ℕ} (h : clearedBit env t img n = some i) :
    iLinksCount img n = 1 ∧ i < sInodesCount img ∧ bit img (bgInodeBitmap img) i = true := by
  unfold clearedBit at h
  split at h
  · rename_i hlast
    have hfind := List.find?_range_eq_some.1 h
    rw [List.mem_range, Bool.and_eq_true] at hfind
    exact ⟨hlast, hfind.2.1, hfind.1.1⟩
  · cases h

/-- **What `remove_link` does** to an inode in use. -/
theorem removeLink_taken (hg : Geometry img) (huse : inUse img n = true)
    (hlinks : 1 ≤ iLinksCount img n) :
    LinkTaken img (removeLink env t img n) n (clearedBit env t img n)
      ((bgFreeInodesCount img + if (clearedBit env t img n).isSome then 1 else 0) % 2 ^ 16)
      (if (clearedBit env t img n).isSome then iDtime img n else env.now % 2 ^ 32) := by
  have hlt : bgFreeInodesCount img < 2 ^ 16 := load_lt _ _ _
  have htime : LinkTaken img (setIDtime (decrement img n) n env.now) n none
      (bgFreeInodesCount img) (env.now % 2 ^ 32) := linkTaken_time hg huse
  rw [← Nat.mod_eq_of_lt hlt] at htime
  by_cases hlast : iLinksCount img n = 1
  · rw [removeLink_last hg huse hlast]
    cases hc : clearedBit env t img n with
    | none =>
      rw [clearedBit, if_pos hlast] at hc
      rw [hc]
      exact htime
    | some i =>
      have hi := (clearedBit_some hc).2.1
      rw [clearedBit, if_pos hlast] at hc
      rw [hc]
      exact linkTaken_bit hg huse hi _
  · have hc : clearedBit env t img n = none := if_neg hlast
    rw [removeLink_more hg huse (by omega), hc]
    exact htime

/-! ## The condition -/

theorem clearedBit_eq (hinit : init img = some t) (huse : inUse img n = true)
    (hstops : iLinksCount img n = 1 → StopsAtBit env t img n) :
    clearedBit env t img n = if iLinksCount img n = 1 then some (n - 1) else none := by
  unfold clearedBit
  split
  · rename_i hlast
    exact (foundBit_iff hinit huse).2 (hstops hlast)
  · rfl

/-- The bits are right if the loop stops at the inode's. -/
theorem LinkTaken.bits_iff {img' : Image} {count time m : ℕ}
    (h : LinkTaken img img' n (clearedBit env t img n) count time) (hinit : init img = some t)
    (huse : inUse img n = true) (hm : sInodesCount img ≤ m) (hm' : m ≤ 8192) :
    (∀ i < m, bit img' (bgInodeBitmap img) i =
      (bit img (bgInodeBitmap img) i && !decide (iLinksCount img n = 1 ∧ i = n - 1))) ↔
    (iLinksCount img n = 1 → StopsAtBit env t img n) := by
  obtain ⟨h₁, hle, hbit⟩ := inUse_iff.1 huse
  constructor
  · intro hbits hlast
    rw [← foundBit_iff hinit huse]
    have hgone := hbits (n - 1) (by omega)
    rw [h.bits (n - 1) (by omega), hbit] at hgone
    simpa [hlast, clearedBit] using hgone
  · intro hstops i hi
    rw [h.bits i (by omega), clearedBit_eq hinit huse hstops]
    split
    · rename_i hlast
      simp [hlast, eq_comm]
    · rename_i hmore
      simp [hmore]

/-- **One link less.** `remove_link` does what is promised of it exactly if the deletion time of
the inode is the current time already and, for the last link, the loop stops at the inode's bit
and the number of free inodes does not overflow. -/
theorem removeLink_iff (hg : Geometry img) (hinit : init img = some t)
    (huse : inUse img n = true) (hlinks : 1 ≤ iLinksCount img n) :
    FreesRight env img (removeLink env t img n) n ↔ iDtime img n = env.now % 2 ^ 32 ∧
      (iLinksCount img n = 1 → bgFreeInodesCount img < 65535 ∧ StopsAtBit env t img n) := by
  have hlt : bgFreeInodesCount img < 65536 := load_lt _ _ _
  have htaken : LinkTaken img (removeLink env t img n) n (clearedBit env t img n) _ _ :=
    removeLink_taken hg huse hlinks
  have hbits := htaken.bits_iff hinit huse hg.inodes le_rfl
  constructor
  · intro h
    have hstops := hbits.1 h.bits
    rw [clearedBit_eq hinit huse hstops] at htaken
    have hfree := h.freeInodes
    have htime := h.time
    rw [htaken.freeInodes] at hfree
    rw [htaken.time] at htime
    by_cases hlast : iLinksCount img n = 1
    · simp only [hlast, if_true, Option.isSome_some] at hfree htime
      exact ⟨htime, fun _ => ⟨by omega, hstops hlast⟩⟩
    · simp only [hlast, if_false, Option.isSome_none, Bool.false_eq_true] at htime
      exact ⟨htime.symm, fun h => absurd h hlast⟩
  · rintro ⟨htime, hlast⟩
    have hstops : iLinksCount img n = 1 → StopsAtBit env t img n := fun h => (hlast h).2
    refine ⟨htaken.links, hbits.2 hstops, htaken.blocks, ?_, htaken.freeBlocks, ?_⟩
    · rw [htaken.freeInodes, clearedBit_eq hinit huse hstops]
      split
      · rename_i h
        have hfree := (hlast h).1
        simp only [Option.isSome_some, if_true]
        omega
      · simp only [Option.isSome_none, Bool.false_eq_true, if_false]
        omega
    · rw [htaken.time, htime, ite_self, ite_self]

/-- A second link to `/f`. -/
def exTwice : Image := setILinksCount exImage 15 2

theorem exTwice_geometry : Geometry exTwice := by
  constructor
  all_goals decide +kernel

/-- It can be taken away as promised, when the time is 0. -/
theorem removeLink_iff_file : iLinksCount exTwice 15 = 2 ∧
    FreesRight exEnv exTwice (removeLink exEnv exTables exTwice 15) 15 := by
  have hlinks : iLinksCount exTwice 15 = 2 := by decide +kernel
  have hinit : init exTwice = some exTables := by decide +kernel
  have huse : inUse exTwice 15 = true := by decide +kernel
  have hlast : iLinksCount exTwice 15 ≠ 1 := by rw [hlinks]; decide
  exact ⟨hlinks, (removeLink_iff exTwice_geometry hinit huse (by omega)).2
    ⟨by decide +kernel, fun h => absurd h hlast⟩⟩

theorem exImage_links : inUse exImage 15 = true ∧ iLinksCount exImage 15 = 1 := by decide +kernel

/-- The last link of `/f`, inode 15: bit 4 of the inode bitmap is cleared, and bit 14 is not. -/
theorem removeLink_wrong_bit : Sound exImage ∧ init exImage = some exTables ∧
    inUse exImage 15 = true ∧ isDirectory exImage 15 = false ∧ iLinksCount exImage 15 = 1 ∧
    bit (removeLink exEnv exTables exImage 15) 4 4 = false ∧
    bit (removeLink exEnv exTables exImage 15) 4 14 = true ∧
    ¬ FreesRight exEnv exImage (removeLink exEnv exTables exImage 15) 15 := by
  have hbits : bit (removeLink exEnv exTables exImage 15) 4 4 = false ∧
      bit (removeLink exEnv exTables exImage 15) 4 14 = true := by decide +kernel
  refine ⟨exImage_sound, exImage_init, exImage_links.1, by decide +kernel, exImage_links.2,
    hbits.1, hbits.2, fun h => ?_⟩
  have hgone := h.bits 14 (by decide)
  have hbitmap : bgInodeBitmap exImage = 4 := by decide +kernel
  rw [hbitmap, hbits.2, exImage_links.2] at hgone
  simp at hgone

end Cscc69.Ext2
