import Cscc69.Ext2.Directory
import Mathlib.Data.Set.BooleanAlgebra
import Mathlib.Order.BourbakiWitt
import Mathlib.Order.CompletePartialOrder

/-!
# What the helpers change

The image has regions: the superblock and the group descriptor, the two bitmaps, the inode table
and the other blocks. `Geometry` says that they do not overlap. Each helper of helper.c changes
bytes in a few of them, which is its frame; the fields in the other regions keep their values.

No tool changes the fields that say where the regions are (`SameShape`).
-/

namespace Cscc69.Ext2

open Bytes Records

/-! ## Regions -/

/-- The counts of inodes and blocks, and the places of the bitmaps and of the inode table. -/
def header : Set ℕ := Set.Ico 1024 1032 ∪ Set.Ico 2048 2060

/-- The free counts of the group descriptor. -/
def freeCounts : Set ℕ := Set.Ico 2060 2064

def blockBytes (block : ℕ) : Set ℕ :=
  Set.Ico (block * ext2BlockSize) (block * ext2BlockSize + ext2BlockSize)

/-- `len` bytes of an inode. -/
def inodeField (img : Image) (ino off len : ℕ) : Set ℕ :=
  Set.Ico (inodeAddr img ino + off) (inodeAddr img ino + off + len)

/-- Where the inode table ends. -/
def tableEnd (img : Image) : ℕ := bgInodeTable img * ext2BlockSize + 128 * sInodesCount img

/-- A block of the image apart from the superblock, the group descriptor, the bitmaps and the inode
table. -/
structure IsData (img : Image) (block : ℕ) : Prop where
  inside : InImage block
  three_le : 3 ≤ block
  blockBitmap : block ≠ bgBlockBitmap img
  inodeBitmap : block ≠ bgInodeBitmap img
  table : block < bgInodeTable img ∨ tableEnd img ≤ block * ext2BlockSize

/-- The regions do not overlap, and each bitmap fits its block. -/
structure Geometry (img : Image) : Prop where
  inodes : sInodesCount img ≤ 8192
  blocks : sBlocksCount img ≤ 8192
  blockBitmap : 3 ≤ bgBlockBitmap img
  inodeBitmap : 3 ≤ bgInodeBitmap img
  bitmaps : bgBlockBitmap img ≠ bgInodeBitmap img
  table : 3 ≤ bgInodeTable img
  blockBitmap_table : bgBlockBitmap img < bgInodeTable img ∨
    tableEnd img ≤ bgBlockBitmap img * ext2BlockSize
  inodeBitmap_table : bgInodeBitmap img < bgInodeTable img ∨
    tableEnd img ≤ bgInodeBitmap img * ext2BlockSize

/-- The bitmaps and the inode table are in the image. -/
structure TablesInside (img : Image) : Prop where
  blockBitmap : InImage (bgBlockBitmap img)
  inodeBitmap : InImage (bgInodeBitmap img)
  table : tableEnd img ≤ imageSize

/-- The regions of both images are the same. -/
structure SameShape (img img' : Image) : Prop where
  inodes : sInodesCount img' = sInodesCount img
  blocks : sBlocksCount img' = sBlocksCount img
  blockBitmap : bgBlockBitmap img' = bgBlockBitmap img
  inodeBitmap : bgInodeBitmap img' = bgInodeBitmap img
  table : bgInodeTable img' = bgInodeTable img

variable {img img' img'' : Image} {n m b k off len pos : ℕ} {P : Set ℕ} {t : Tables}

theorem SameShape.refl (img : Image) : SameShape img img := ⟨rfl, rfl, rfl, rfl, rfl⟩

theorem SameShape.trans (h : SameShape img img') (h' : SameShape img' img'') :
    SameShape img img'' :=
  ⟨h'.inodes.trans h.inodes, h'.blocks.trans h.blocks, h'.blockBitmap.trans h.blockBitmap,
    h'.inodeBitmap.trans h.inodeBitmap, h'.table.trans h.table⟩

theorem SameShape.symm (h : SameShape img img') : SameShape img' img :=
  ⟨h.inodes.symm, h.blocks.symm, h.blockBitmap.symm, h.inodeBitmap.symm, h.table.symm⟩

theorem SameShape.of_frame (h : Frame P img img') (hP : Disjoint P header) :
    SameShape img img' := by
  have hload : ∀ a k, Set.Ico a (a + k) ⊆ header → load img' a k = load img a k := by
    intro a k ha
    refine h.load_eq fun i hi hlt hiP => Set.disjoint_left.1 hP hiP (ha ?_)
    exact Set.mem_Ico.2 ⟨hi, hlt⟩
  have hsub : ∀ a k, 1024 ≤ a ∧ a + k ≤ 1032 ∨ 2048 ≤ a ∧ a + k ≤ 2060 →
      Set.Ico a (a + k) ⊆ header := by
    intro a k ha i hi
    simp only [header, Set.mem_union, Set.mem_Ico] at hi ⊢
    omega
  exact ⟨hload _ _ (hsub _ _ (by decide)), hload _ _ (hsub _ _ (by decide)),
    hload _ _ (hsub _ _ (by decide)), hload _ _ (hsub _ _ (by decide)),
    hload _ _ (hsub _ _ (by decide))⟩

theorem SameShape.inodeAddr_eq (h : SameShape img img') (n : ℕ) :
    inodeAddr img' n = inodeAddr img n := by
  rw [inodeAddr_def, inodeAddr_def, h.table]

theorem SameShape.tableEnd_eq (h : SameShape img img') : tableEnd img' = tableEnd img := by
  rw [tableEnd, tableEnd, h.table, h.inodes]

theorem SameShape.inodeField_eq (h : SameShape img img') (n off len : ℕ) :
    inodeField img' n off len = inodeField img n off len := by
  rw [inodeField, inodeField, h.inodeAddr_eq]

theorem SameShape.isData (h : SameShape img img') (hb : IsData img b) : IsData img' b := by
  refine ⟨hb.inside, hb.three_le, ?_, ?_, ?_⟩
  · rw [h.blockBitmap]; exact hb.blockBitmap
  · rw [h.inodeBitmap]; exact hb.inodeBitmap
  · rw [h.table, h.tableEnd_eq]; exact hb.table

theorem SameShape.geometry (h : SameShape img img') (hg : Geometry img) : Geometry img' := by
  obtain ⟨h₁, h₂, h₃, h₄, h₅, h₆, h₇, h₈⟩ := hg
  constructor
  · rw [h.inodes]; exact h₁
  · rw [h.blocks]; exact h₂
  · rw [h.blockBitmap]; exact h₃
  · rw [h.inodeBitmap]; exact h₄
  · rw [h.blockBitmap, h.inodeBitmap]; exact h₅
  · rw [h.table]; exact h₆
  · rw [h.blockBitmap, h.table, h.tableEnd_eq]; exact h₇
  · rw [h.inodeBitmap, h.table, h.tableEnd_eq]; exact h₈

theorem SameShape.tablesInside (h : SameShape img img') (ht : TablesInside img) :
    TablesInside img' := by
  refine ⟨?_, ?_, ?_⟩
  · rw [h.blockBitmap]; exact ht.blockBitmap
  · rw [h.inodeBitmap]; exact ht.inodeBitmap
  · rw [h.tableEnd_eq]; exact ht.table

/-! ## Which regions are apart -/

theorem disjoint_blockBytes_header (hb : 3 ≤ b) : Disjoint (blockBytes b) header := by
  have hsize : ext2BlockSize = 1024 := rfl
  rw [Set.disjoint_left]
  simp only [blockBytes, header, Set.mem_union, Set.mem_Ico, hsize]
  intro i hi
  omega

theorem disjoint_freeCounts_header : Disjoint freeCounts header := by
  rw [Set.disjoint_left]
  simp only [freeCounts, header, Set.mem_union, Set.mem_Ico]
  intro i hi
  omega

theorem disjoint_blockBytes (hne : b ≠ k) : Disjoint (blockBytes b) (blockBytes k) := by
  have hsize : ext2BlockSize = 1024 := rfl
  rw [Set.disjoint_left]
  simp only [blockBytes, Set.mem_Ico, hsize]
  intro i hi
  omega

theorem disjoint_blockBytes_freeCounts (hb : 3 ≤ b) : Disjoint (blockBytes b) freeCounts := by
  have hsize : ext2BlockSize = 1024 := rfl
  rw [Set.disjoint_left]
  simp only [blockBytes, freeCounts, Set.mem_Ico, hsize]
  intro i hi
  omega

/-- An inode lies in the table. -/
theorem inodeField_subset (h₁ : 1 ≤ n) (h₂ : n ≤ sInodesCount img) (hlen : off + len ≤ 128) :
    inodeField img n off len ⊆ Set.Ico (bgInodeTable img * ext2BlockSize) (tableEnd img) := by
  intro i
  simp only [inodeField, inodeAddr_def, tableEnd, Set.mem_Ico]
  omega

/-- A field within a field. -/
theorem inodeField_mono {off' len' : ℕ} (hoff : off' ≤ off) (hlen : off + len ≤ off' + len') :
    inodeField img n off len ⊆ inodeField img n off' len' := by
  intro i
  simp only [inodeField, Set.mem_Ico]
  omega

theorem disjoint_inodeField_header (hg : Geometry img) (h₁ : 1 ≤ n) (h₂ : n ≤ sInodesCount img)
    (hlen : off + len ≤ 128) : Disjoint (inodeField img n off len) header := by
  have hsize : ext2BlockSize = 1024 := rfl
  have htable := hg.table
  refine Set.disjoint_of_subset_left (inodeField_subset h₁ h₂ hlen) (Set.disjoint_left.2 ?_)
  simp only [header, Set.mem_union, Set.mem_Ico, hsize]
  intro i hi
  omega

theorem disjoint_inodeField_freeCounts (hg : Geometry img) (h₁ : 1 ≤ n)
    (h₂ : n ≤ sInodesCount img) (hlen : off + len ≤ 128) :
    Disjoint (inodeField img n off len) freeCounts := by
  have hsize : ext2BlockSize = 1024 := rfl
  have htable := hg.table
  refine Set.disjoint_of_subset_left (inodeField_subset h₁ h₂ hlen) (Set.disjoint_left.2 ?_)
  simp only [freeCounts, Set.mem_Ico, hsize]
  intro i hi
  omega

/-- An inode and a block apart from the inode table. -/
theorem disjoint_inodeField_blockBytes (h₁ : 1 ≤ n) (h₂ : n ≤ sInodesCount img)
    (hlen : off + len ≤ 128)
    (hb : b < bgInodeTable img ∨ tableEnd img ≤ b * ext2BlockSize) :
    Disjoint (inodeField img n off len) (blockBytes b) := by
  have hsize : ext2BlockSize = 1024 := rfl
  refine Set.disjoint_of_subset_left (inodeField_subset h₁ h₂ hlen) (Set.disjoint_left.2 ?_)
  simp only [blockBytes, Set.mem_Ico, hsize] at hb ⊢
  intro i hi
  omega

theorem disjoint_inodeField {off' len' : ℕ} (hn : 1 ≤ n) (hm : 1 ≤ m) (hlen : off + len ≤ 128)
    (hlen' : off' + len' ≤ 128) (h : n ≠ m ∨ off + len ≤ off' ∨ off' + len' ≤ off) :
    Disjoint (inodeField img n off len) (inodeField img m off' len') := by
  rw [Set.disjoint_left]
  simp only [inodeField, inodeAddr_def, Set.mem_Ico]
  intro i hi
  omega

/-! ## What keeps its value -/

theorem load_inodeField (h : Frame P img img') (hs : SameShape img img')
    (hP : Disjoint (inodeField img n off len) P) :
    load img' (inodeAddr img' n + off) len = load img (inodeAddr img n + off) len := by
  rw [hs.inodeAddr_eq]
  exact h.load_eq fun i hi hlt => Set.disjoint_left.1 hP (Set.mem_Ico.2 ⟨hi, hlt⟩)

theorem iMode_eq (h : Frame P img img') (hs : SameShape img img')
    (hP : Disjoint (inodeField img n 0 2) P) : iMode img' n = iMode img n := by
  have hload := load_inodeField h hs hP
  rw [Nat.add_zero, Nat.add_zero] at hload
  exact hload

theorem iLinksCount_eq (h : Frame P img img') (hs : SameShape img img')
    (hP : Disjoint (inodeField img n 26 2) P) : iLinksCount img' n = iLinksCount img n :=
  load_inodeField h hs hP

/-- The first twelve block pointers are 48 bytes. -/
theorem iBlock_eq (h : Frame P img img') (hs : SameShape img img')
    (hP : Disjoint (inodeField img n 40 48) P) (hk : k < 12) :
    iBlock img' n k = iBlock img n k := by
  have hsub : inodeField img n (40 + 4 * k) 4 ⊆ inodeField img n 40 48 :=
    inodeField_mono (by omega) (by omega)
  have hload := load_inodeField h hs (Set.disjoint_of_subset_left hsub hP)
  rw [← Nat.add_assoc, ← Nat.add_assoc] at hload
  exact hload

theorem blockList_eq (h : Frame P img img') (hs : SameShape img img')
    (hP : Disjoint (inodeField img n 40 48) P) : blockList img' n = blockList img n := by
  rw [blockList, blockList]
  congr 1
  apply List.map_congr_left
  intro k hk
  exact iBlock_eq h hs hP (List.mem_range.1 hk)

/-- A bit of a bitmap, which fits its block. -/
theorem bit_eq (h : Frame P img img') (hP : Disjoint (blockBytes b) P) (hk : k < 8192) :
    bit img' b k = bit img b k := by
  have hsize : ext2BlockSize = 1024 := rfl
  have hmem : b * ext2BlockSize + k / 8 ∈ blockBytes b := by
    simp only [blockBytes, Set.mem_Ico, hsize]
    omega
  rw [bit, bit, h _ (Set.disjoint_left.1 hP hmem)]

theorem agree_blockBytes (h : Frame P img img') (hP : Disjoint (blockBytes b) P) :
    Agree img img' (b * ext2BlockSize) (b * ext2BlockSize + ext2BlockSize) :=
  h.agree fun _ hi hlt => Set.disjoint_left.1 hP (Set.mem_Ico.2 ⟨hi, hlt⟩)

/-! ## The bitmaps -/

theorem testBit_shift : ∀ k < 8, ∀ l < 8,
    ((1 : UInt8) <<< UInt8.ofNat k).toNat.testBit l = decide (l = k) := by decide

theorem testBit_not_shift : ∀ k < 8, ∀ l < 8,
    (~~~((1 : UInt8) <<< UInt8.ofNat k)).toNat.testBit l = !decide (l = k) := by decide

theorem bit_update (img : Image) (b i k : ℕ) (v : UInt8) :
    bit (Function.update img (b * ext2BlockSize + i / 8) v) b k =
      if k / 8 = i / 8 then v.toNat.testBit (k % 8) else bit img b k := by
  unfold bit
  split
  · rename_i hbyte
    rw [hbyte, Function.update_self]
  · rename_i hbyte
    rw [Function.update_of_ne (by omega)]

theorem bit_setBit (img : Image) (b i k : ℕ) :
    bit (setBit img b i) b k = (bit img b k || decide (k = i)) := by
  have hi : i % 8 < 8 := Nat.mod_lt _ (by decide)
  have hk : k % 8 < 8 := Nat.mod_lt _ (by decide)
  unfold setBit
  rw [bit_update]
  split
  · rename_i hbyte
    have hiff : (k % 8 = i % 8) ↔ k = i := by omega
    rw [UInt8.toNat_or, Nat.testBit_or, testBit_shift _ hi _ hk, bit, hbyte]
    simp only [hiff]
  · rename_i hbyte
    have hne : k ≠ i := fun heq => hbyte (by rw [heq])
    rw [decide_eq_false hne, Bool.or_false]

theorem bit_clearBit (img : Image) (b i k : ℕ) :
    bit (clearBit img b i) b k = (bit img b k && !decide (k = i)) := by
  have hi : i % 8 < 8 := Nat.mod_lt _ (by decide)
  have hk : k % 8 < 8 := Nat.mod_lt _ (by decide)
  unfold clearBit
  rw [bit_update]
  split
  · rename_i hbyte
    have hiff : (k % 8 = i % 8) ↔ k = i := by omega
    rw [UInt8.toNat_and, Nat.testBit_and, testBit_not_shift _ hi _ hk, bit, hbyte]
    simp only [hiff]
  · rename_i hbyte
    have hne : k ≠ i := fun heq => hbyte (by rw [heq])
    rw [decide_eq_false hne, Bool.not_false, Bool.and_true]

theorem frame_setBit (hP : blockBytes b ⊆ P) (h : Frame P img img') (hk : k < 8192) :
    Frame P img (setBit img' b k) := by
  have hsize : ext2BlockSize = 1024 := rfl
  refine h.update (hP ?_)
  simp only [blockBytes, Set.mem_Ico, hsize]
  omega

theorem frame_clearBit (hP : blockBytes b ⊆ P) (h : Frame P img img') (hk : k < 8192) :
    Frame P img (clearBit img' b k) := by
  have hsize : ext2BlockSize = 1024 := rfl
  refine h.update (hP ?_)
  simp only [blockBytes, Set.mem_Ico, hsize]
  omega

theorem frame_setBgFreeBlocksCount (hP : freeCounts ⊆ P) (h : Frame P img img') (v : ℕ) :
    Frame P img (setBgFreeBlocksCount img' v) := by
  refine h.store fun i hi hlt => hP ?_
  simp only [freeCounts, Set.mem_Ico]
  omega

theorem frame_setBgFreeInodesCount (hP : freeCounts ⊆ P) (h : Frame P img img') (v : ℕ) :
    Frame P img (setBgFreeInodesCount img' v) := by
  refine h.store fun i hi hlt => hP ?_
  simp only [freeCounts, Set.mem_Ico]
  omega

/-- A store into a field of an inode. -/
theorem frame_storeInode (hP : inodeField img n off len ⊆ P) (h : Frame P img img')
    (hs : SameShape img img') {v : ℕ} (hin : off ≤ k) (hin' : k + m ≤ off + len) :
    Frame P img (store img' (inodeAddr img' n + k) m v) := by
  rw [hs.inodeAddr_eq]
  refine h.store fun i hi hlt => hP ?_
  simp only [inodeField, Set.mem_Ico]
  omega

/-! ## `find_free_inode` and `find_free_block` -/

/-- What `find_free_inode` and `find_free_block` do to the bits of their bitmap. -/
structure Marks (img img' : Image) (bitmap count : ℕ) (free : ℕ) : Prop where
  frame : Frame (blockBytes bitmap ∪ freeCounts) img img'
  range : free ≤ count
  fresh : free ≠ 0 → bit img bitmap (free - 1) = false
  bit : ∀ k, bit img' bitmap k = (bit img bitmap k || decide (k + 1 = free))

theorem bit_setBgFreeBlocksCount (hb : 3 ≤ b) (img : Image) (v k : ℕ) :
    bit (setBgFreeBlocksCount img v) b k = bit img b k := by
  have hsize : ext2BlockSize = 1024 := rfl
  unfold bit setBgFreeBlocksCount store
  rw [if_neg]
  rw [hsize]
  omega

theorem bit_setBgFreeInodesCount (hb : 3 ≤ b) (img : Image) (v k : ℕ) :
    bit (setBgFreeInodesCount img v) b k = bit img b k := by
  have hsize : ext2BlockSize = 1024 := rfl
  unfold bit setBgFreeInodesCount store
  rw [if_neg]
  rw [hsize]
  omega

theorem findFreeInode_marks (hg : Geometry img) :
    Marks img (findFreeInode img).2 (bgInodeBitmap img) (sInodesCount img) (findFreeInode img).1 ∧
      ((findFreeInode img).1 ≠ 0 → 12 ≤ (findFreeInode img).1) := by
  have hcount := hg.inodes
  unfold findFreeInode
  split
  · exact ⟨⟨.refl _ _, Nat.zero_le _, fun h => absurd rfl h, fun k => by simp⟩,
      fun h => absurd rfl h⟩
  · rename_i i hfind
    have hlt : i < sInodesCount img := List.mem_range.1 (List.mem_of_find?_eq_some hfind)
    have hfree := List.find?_some hfind
    rw [Bool.and_eq_true, Bool.not_eq_true', decide_eq_true_eq] at hfree
    refine ⟨⟨?_, hlt, fun _ => hfree.1, fun k => ?_⟩, fun _ => ?_⟩
    · exact frame_setBgFreeInodesCount Set.subset_union_right
        (frame_setBit Set.subset_union_left (.refl _ _) (by omega)) _
    · rw [bit_setBgFreeInodesCount hg.inodeBitmap, bit_setBit]
      simp only [Nat.add_right_cancel_iff]
    · show 12 ≤ i + 1
      omega

theorem findFreeBlock_marks (hg : Geometry img) :
    Marks img (findFreeBlock img).2 (bgBlockBitmap img) (sBlocksCount img)
      (findFreeBlock img).1 := by
  have hcount := hg.blocks
  unfold findFreeBlock
  split
  · exact ⟨.refl _ _, Nat.zero_le _, fun h => absurd rfl h, fun k => by simp⟩
  · rename_i i hfind
    have hlt : i < sBlocksCount img := List.mem_range.1 (List.mem_of_find?_eq_some hfind)
    have hfree := List.find?_some hfind
    rw [Bool.not_eq_true'] at hfree
    refine ⟨?_, hlt, fun _ => hfree, fun k => ?_⟩
    · exact frame_setBgFreeBlocksCount Set.subset_union_right
        (frame_setBit Set.subset_union_left (.refl _ _) (by omega)) _
    · rw [bit_setBgFreeBlocksCount hg.blockBitmap, bit_setBit]
      simp only [Nat.add_right_cancel_iff]

/-! ## `remove_link` -/

/-- The first thing that `remove_link` does. -/
def decrement (img : Image) (n : ℕ) : Image :=
  if 0 < iLinksCount img n then setILinksCount img n (iLinksCount img n - 1) else img

variable {env : Env}

/-- The fields of inode `n` that `remove_link` may change, the inode bitmap and the free counts. -/
def removeLinkBytes (img : Image) (n : ℕ) : Set ℕ :=
  inodeField img n 20 8 ∪ (blockBytes (bgInodeBitmap img) ∪ freeCounts)

theorem removeLinkBytes_header (hg : Geometry img) (h₁ : 1 ≤ n) (h₂ : n ≤ sInodesCount img) :
    Disjoint (removeLinkBytes img n) header := by
  refine Set.disjoint_union_left.2 ⟨disjoint_inodeField_header hg h₁ h₂ (by decide), ?_⟩
  exact Set.disjoint_union_left.2
    ⟨disjoint_blockBytes_header hg.inodeBitmap, disjoint_freeCounts_header⟩

theorem decrement_frame (img : Image) (n : ℕ) :
    Frame (inodeField img n 20 8) img (decrement img n) := by
  unfold decrement
  split
  · exact frame_storeInode subset_rfl (.refl _ _) (.refl _) (by decide) (by decide)
  · exact .refl _ _

theorem decrement_shape (hg : Geometry img) (h₁ : 1 ≤ n) (h₂ : n ≤ sInodesCount img) :
    SameShape img (decrement img n) :=
  .of_frame (decrement_frame img n) (disjoint_inodeField_header hg h₁ h₂ (by decide))

theorem decrement_links (hg : Geometry img) (h₁ : 1 ≤ n) (h₂ : n ≤ sInodesCount img) :
    iLinksCount (decrement img n) n = iLinksCount img n - 1 := by
  have hlt : iLinksCount img n < 256 ^ 2 := load_lt _ _ _
  have hs := decrement_shape hg h₁ h₂
  rw [iLinksCount, hs.inodeAddr_eq]
  unfold decrement
  split
  · rw [setILinksCount, load_store, Nat.mod_eq_of_lt (by omega)]
  · rename_i hzero
    show iLinksCount img n = _
    omega

/-- `remove_link` decrements the count; then it either clears a bit of the inode bitmap, whose
index it has found, or sets the deletion time. -/
theorem removeLink_cases (env : Env) (t : Tables) (hg : Geometry img) (h₁ : 1 ≤ n)
    (h₂ : n ≤ sInodesCount img) :
    removeLink env t img n = setIDtime (decrement img n) n env.now ∨
    ∃ i v, i < sInodesCount img ∧ iLinksCount img n = 1 ∧
      removeLink env t img n =
        setBgFreeInodesCount (clearBit (decrement img n) (bgInodeBitmap img) i) v := by
  have hs := decrement_shape hg h₁ h₂
  have hlinks := decrement_links hg h₁ h₂
  unfold removeLink
  split
  · rename_i hpos
    have hdec : decrement img n = setILinksCount img n (iLinksCount img n - 1) := by
      rw [decrement, if_pos hpos]
    simp only [← hdec]
    split
    · rename_i hzero
      split
      · rename_i i hfind
        have hi := List.mem_range.1 (List.mem_of_find?_eq_some hfind)
        rw [hs.inodes] at hi
        exact .inr ⟨i, _, hi, by omega, by rw [hs.inodeBitmap]⟩
      · exact .inl rfl
    · exact .inl rfl
  · rename_i hzero
    rw [decrement, if_neg hzero]
    exact .inl rfl

theorem removeLink_frame (env : Env) (t : Tables) (hg : Geometry img) (h₁ : 1 ≤ n)
    (h₂ : n ≤ sInodesCount img) :
    Frame (removeLinkBytes img n) img (removeLink env t img n) := by
  have hcount := hg.inodes
  have hdec : Frame (removeLinkBytes img n) img (decrement img n) :=
    (decrement_frame img n).mono Set.subset_union_left
  rcases removeLink_cases env t hg h₁ h₂ with heq | ⟨i, v, hi, -, heq⟩
  · rw [heq]
    exact frame_storeInode Set.subset_union_left hdec (decrement_shape hg h₁ h₂) (by decide)
      (by decide)
  · rw [heq]
    have hsub : blockBytes (bgInodeBitmap img) ∪ freeCounts ⊆ removeLinkBytes img n :=
      Set.subset_union_right
    exact frame_setBgFreeInodesCount (Set.subset_union_right.trans hsub)
      (frame_clearBit (Set.subset_union_left.trans hsub) hdec (by omega)) _

theorem removeLink_shape (env : Env) (t : Tables) (hg : Geometry img) (h₁ : 1 ≤ n)
    (h₂ : n ≤ sInodesCount img) :
    SameShape img (removeLink env t img n) :=
  .of_frame (removeLink_frame env t hg h₁ h₂) (removeLinkBytes_header hg h₁ h₂)

theorem removeLink_links (env : Env) (t : Tables) (hg : Geometry img) (h₁ : 1 ≤ n)
    (h₂ : n ≤ sInodesCount img) :
    iLinksCount (removeLink env t img n) n = iLinksCount img n - 1 := by
  have hcount := hg.inodes
  rw [← decrement_links hg h₁ h₂]
  have hs := decrement_shape hg h₁ h₂
  rcases removeLink_cases env t hg h₁ h₂ with heq | ⟨i, v, hi, -, heq⟩
  · rw [heq]
    have hframe : Frame (inodeField (decrement img n) n 20 4) (decrement img n)
        (setIDtime (decrement img n) n env.now) :=
      frame_storeInode subset_rfl (.refl _ _) (.refl _) (by decide) (by decide)
    have hg' := hs.geometry hg
    have h₂' : n ≤ sInodesCount (decrement img n) := by rw [hs.inodes]; exact h₂
    refine iLinksCount_eq hframe (.of_frame hframe ?_) ?_
    · exact disjoint_inodeField_header hg' h₁ h₂' (by decide)
    · exact disjoint_inodeField h₁ h₁ (by decide) (by decide) (.inr (.inr (by decide)))
  · rw [heq]
    have hframe : Frame (blockBytes (bgInodeBitmap img) ∪ freeCounts) (decrement img n)
        (setBgFreeInodesCount (clearBit (decrement img n) (bgInodeBitmap img) i) v) :=
      frame_setBgFreeInodesCount Set.subset_union_right
        (frame_clearBit Set.subset_union_left (.refl _ _) (by omega)) _
    refine iLinksCount_eq hframe (.of_frame hframe ?_) ?_
    · exact Set.disjoint_union_left.2
        ⟨disjoint_blockBytes_header hg.inodeBitmap, disjoint_freeCounts_header⟩
    · rw [hs.inodeField_eq]
      refine Set.disjoint_union_right.2 ⟨?_, disjoint_inodeField_freeCounts hg h₁ h₂ (by decide)⟩
      exact disjoint_inodeField_blockBytes h₁ h₂ (by decide) hg.inodeBitmap_table

/-- No bit of the inode bitmap gets set. -/
theorem removeLink_bit (hg : Geometry img) (h₁ : 1 ≤ n) (h₂ : n ≤ sInodesCount img)
    (hk : k < 8192)
    (h : bit (removeLink env t img n) (bgInodeBitmap img) k = true) :
    bit img (bgInodeBitmap img) k = true := by
  have hdisj : Disjoint (blockBytes (bgInodeBitmap img)) (inodeField img n 20 8) :=
    (disjoint_inodeField_blockBytes h₁ h₂ (by decide) hg.inodeBitmap_table).symm
  have hdec : bit (decrement img n) (bgInodeBitmap img) k = bit img (bgInodeBitmap img) k :=
    bit_eq (decrement_frame img n) hdisj hk
  rw [← hdec]
  rcases removeLink_cases env t hg h₁ h₂ with heq | ⟨i, v, hi, -, heq⟩
  · rw [heq] at h
    have hframe : Frame (inodeField img n 20 8) (decrement img n)
        (setIDtime (decrement img n) n env.now) :=
      (decrement_shape hg h₁ h₂).inodeField_eq n 20 8 ▸
        frame_storeInode subset_rfl (.refl _ _) (.refl _) (by decide) (by decide)
    rw [← bit_eq hframe hdisj hk]
    exact h
  · rw [heq, bit_setBgFreeInodesCount hg.inodeBitmap, bit_clearBit, Bool.and_eq_true] at h
    exact h.1

end Cscc69.Ext2
