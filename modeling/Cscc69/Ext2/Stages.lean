import Cscc69.Ext2.Edits
import Mathlib.Data.List.Find

/-!
# The steps of an edit

Between the check of its arguments and its end a tool calls `find_free_inode`, `create_link`,
`allocate` and `copy`. Each of their stores is into one of the regions that an edit may change, so
that every image on the way is a `Stage`. A field of an inode keeps its value under the stores to
the other fields (`SameField`).

Main results: `Stage.copyBlocks` for the loop of `copy`, and `Stage.allocateDir` for a directory and
its block of two entries (`NewDir`).
-/

namespace Cscc69.Ext2

open Bytes Records

variable {img im im' : Image} {n m b d k x off len v : ℕ} {P : Set ℕ}

/-! ## Stages -/

/-- The bytes of `toolBytes` that are not for the bitmaps and the free counts. -/
def innerBytes (img : Image) (b n d : ℕ) : Set ℕ :=
  blockBytes b ∪ (inodeField img n 0 128 ∪ inodeField img d 26 2) ∪
    {a | ∃ x, Spare img x ∧ a ∈ blockBytes x}

theorem innerBytes_subset (img : Image) (b n d : ℕ) :
    innerBytes img b n d ⊆ toolBytes img b n d := by
  intro i hi
  rcases hi with (hi | hi) | hi
  · exact .inl (.inl (.inl hi))
  · exact .inl (.inl (.inr hi))
  · exact .inr hi

/-- A bitmap's block, which is in use and apart from the inode table. -/
theorem Site.disjoint_inner (hs : Site img d b n) (hkb : k ≠ b) (hk : 3 ≤ k) (hno : ¬ IsData img k)
    (htable : k < bgInodeTable img ∨ tableEnd img ≤ k * ext2BlockSize) :
    Disjoint (blockBytes k) (innerBytes img b n d) := by
  obtain ⟨hd₁, hd₂⟩ := hs.sound.range hs.dir
  refine Set.disjoint_union_right.2 ⟨Set.disjoint_union_right.2 ⟨disjoint_blockBytes hkb,
    Set.disjoint_union_right.2 ⟨?_, ?_⟩⟩, Set.disjoint_left.2 fun a ha hmem => ?_⟩
  · exact (disjoint_inodeField_blockBytes hs.one_le hs.le (by omega) htable).symm
  · exact (disjoint_inodeField_blockBytes hd₁ hd₂ (by omega) htable).symm
  · obtain ⟨x, hx, hax⟩ := hmem
    refine Set.disjoint_left.1 (disjoint_blockBytes ?_) ha hax
    rintro rfl
    rcases hs.sound.spare hx with rfl | hdata
    · exact absurd hk (by decide)
    · exact hno hdata

theorem Site.disjoint_blockBitmap (hs : Site img d b n) :
    Disjoint (blockBytes (bgBlockBitmap img)) (innerBytes img b n d) := by
  have hg := hs.sound.geometry
  exact hs.disjoint_inner (Ne.symm hs.data.blockBitmap) hg.blockBitmap
    (fun h => h.blockBitmap rfl) hg.blockBitmap_table

theorem Site.disjoint_inodeBitmap (hs : Site img d b n) :
    Disjoint (blockBytes (bgInodeBitmap img)) (innerBytes img b n d) := by
  have hg := hs.sound.geometry
  exact hs.disjoint_inner (Ne.symm hs.data.inodeBitmap) hg.inodeBitmap
    (fun h => h.inodeBitmap rfl) hg.inodeBitmap_table

/-- The inodes keep their marks under such stores. -/
theorem Site.bit_inner (hs : Site img d b n) (hf : Frame (innerBytes img b n d) im im')
    (hk : k < sInodesCount img) :
    bit im' (bgInodeBitmap img) k = bit im (bgInodeBitmap img) k := by
  have hsize := hs.sound.geometry.inodes
  exact bit_eq hf hs.disjoint_inodeBitmap (by omega)

namespace Stage

theorem refl (img : Image) (b n d : ℕ) : Stage img img b n d :=
  ⟨.refl _ _, fun _ _ h => h, fun _ _ h => .inl h⟩

variable (hs : Site img d b n) (h : Stage img im b n d)
include hs h

theorem shape : SameShape img im := hs.shape h.frame

theorem geometry : Geometry im := (h.shape hs).geometry hs.sound.geometry

/-- Stores apart from the bitmaps. -/
theorem inner (hf : Frame (innerBytes img b n d) im im') : Stage img im' b n d := by
  have hframe : Frame (toolBytes img b n d) img im' :=
    h.frame.trans (hf.mono (innerBytes_subset img b n d))
  have hshape := h.shape hs
  have hshape' := hs.shape hframe
  have hg := hs.sound.geometry
  refine ⟨hframe, fun x hx hmarked => ?_, fun i hi hbit => ?_⟩
  · have hsize := hg.blocks
    have hbit := h.marked x hx hmarked
    rw [Ext2.marked, hshape.blockBitmap] at hbit
    rw [Ext2.marked, hshape'.blockBitmap, bit_eq hf hs.disjoint_blockBitmap (by omega)]
    exact hbit
  · rw [hs.bit_inner hf hi] at hbit
    exact h.bits i hi hbit

theorem frameInode (hk : k + m ≤ 128) (v : ℕ) :
    Frame (innerBytes img b n d) im (store im (inodeAddr im n + k) m v) := by
  have hsub : inodeField im n 0 128 ⊆ innerBytes img b n d := by
    rw [(h.shape hs).inodeField_eq]
    exact fun i hi => .inl (.inr (.inl hi))
  exact frame_storeInode hsub (.refl _ _) (.refl _) (Nat.zero_le k) (by omega)

theorem frameLinks (v : ℕ) : Frame (innerBytes img b n d) im (setILinksCount im d v) := by
  have hsub : inodeField im d 26 2 ⊆ innerBytes img b n d := by
    rw [(h.shape hs).inodeField_eq]
    exact fun i hi => .inl (.inr (.inr hi))
  exact frame_storeInode hsub (.refl _ _) (.refl _) le_rfl le_rfl

/-- A store into inode `n`. -/
theorem storeInode (hk : k + m ≤ 128) (v : ℕ) :
    Stage img (store im (inodeAddr im n + k) m v) b n d := h.inner hs (h.frameInode hs hk v)

/-- A store into the link count of `d`. -/
theorem setLinks (v : ℕ) : Stage img (setILinksCount im d v) b n d :=
  h.inner hs (h.frameLinks hs v)

/-- Stores into block `b`. -/
theorem block (hf : Frame (blockBytes b) im im') : Stage img im' b n d :=
  h.inner hs (hf.mono fun _ hi => .inl (.inl hi))

/-- The blocks keep their marks under such stores. -/
theorem marked_inner (hf : Frame (innerBytes img b n d) im im') (hx : x ≤ 8192) :
    Ext2.marked im' x = Ext2.marked im x := by
  rw [Ext2.marked, Ext2.marked, ((h.inner hs hf).shape hs).blockBitmap, (h.shape hs).blockBitmap]
  exact bit_eq hf hs.disjoint_blockBitmap (by omega)

/-- Stores into a block that was not in use. -/
theorem spare (hx : Spare img x) (hf : Frame (blockBytes x) im im') : Stage img im' b n d :=
  h.inner hs (hf.mono fun _ hi => .inr ⟨x, hx, hi⟩)

/-- The inode bitmap is in another block than the one of `find_free_block`. -/
theorem bit_findFreeBlock (hk : k < sInodesCount img) :
    bit (findFreeBlock im).2 (bgInodeBitmap img) k = bit im (bgInodeBitmap img) k := by
  have hg := hs.sound.geometry
  have hsize := hg.inodes
  refine bit_eq (findFreeBlock_marks (h.geometry hs)).frame ?_ (by omega)
  rw [(h.shape hs).blockBitmap]
  exact Set.disjoint_union_right.2 ⟨disjoint_blockBytes (Ne.symm hg.bitmaps),
    disjoint_blockBytes_freeCounts hg.inodeBitmap⟩

/-- `find_free_block` returns a block that was not in use. -/
theorem findFreeBlock : Stage img (findFreeBlock im).2 b n d ∧ Spare img (findFreeBlock im).1 ∧
    ((findFreeBlock im).1 ≠ 0 → Ext2.marked (findFreeBlock im).2 (findFreeBlock im).1 = true) := by
  have hshape := h.shape hs
  have hm := findFreeBlock_marks (h.geometry hs)
  have hframe : Frame (toolBytes img b n d) img (Ext2.findFreeBlock im).2 := by
    refine h.frame.trans (hm.frame.mono ?_)
    rw [hshape.blockBitmap]
    rintro i (hi | hi)
    · exact .inl (.inr (.inl (.inr hi)))
    · exact .inl (.inr (.inr hi))
  have hshape' := hs.shape hframe
  have hmono : ∀ k, bit im (bgBlockBitmap im) k = true →
      bit (Ext2.findFreeBlock im).2 (bgBlockBitmap im) k = true := by
    intro k hk
    rw [hm.bit, hk, Bool.true_or]
  have hg := hs.sound.geometry
  refine ⟨⟨hframe, fun x hx hmarked => ?_, fun i hi hbit => ?_⟩, ?_, fun hne => ?_⟩
  · have hbit := h.marked x hx hmarked
    rw [Ext2.marked, hshape'.blockBitmap, ← hshape.blockBitmap]
    exact hmono _ hbit
  · rw [h.bit_findFreeBlock hs hi] at hbit
    exact h.bits i hi hbit
  · by_cases hzero : (Ext2.findFreeBlock im).1 = 0
    · exact .inl hzero
    · have hle := hm.range
      rw [hshape.blocks] at hle
      refine .inr ⟨Nat.one_le_iff_ne_zero.2 hzero, hle, ?_⟩
      by_contra hmarked
      have hbit := h.marked _ hle (Bool.eq_true_of_not_eq_false hmarked)
      rw [Ext2.marked, hm.fresh hzero] at hbit
      cases hbit
  · rw [Ext2.marked, hshape'.blockBitmap, ← hshape.blockBitmap, hm.bit]
    have heq : (Ext2.findFreeBlock im).1 - 1 + 1 = (Ext2.findFreeBlock im).1 := by omega
    rw [heq]
    simp

end Stage

/-- `find_free_inode` is the first step. -/
theorem Site.findFreeInode (hs : Site img d b (findFreeInode img).1) :
    Stage img (findFreeInode img).2 b (findFreeInode img).1 d ∧
      bit (findFreeInode img).2 (bgInodeBitmap img) ((findFreeInode img).1 - 1) = true := by
  have hg := hs.sound.geometry
  obtain ⟨hm, -⟩ := findFreeInode_marks hg
  have hframe : Frame (toolBytes img b (Ext2.findFreeInode img).1 d) img
      (Ext2.findFreeInode img).2 := by
    refine hm.frame.mono ?_
    rintro i (hi | hi)
    · exact .inl (.inr (.inl (.inl hi)))
    · exact .inl (.inr (.inr hi))
  have hshape := hs.shape hframe
  refine ⟨⟨hframe, fun x hx hmarked => ?_, fun i hi hbit => ?_⟩, ?_⟩
  · have hsize := hg.blocks
    have hdisj : Disjoint (blockBytes (bgBlockBitmap img))
        (blockBytes (bgInodeBitmap img) ∪ freeCounts) :=
      Set.disjoint_union_right.2 ⟨disjoint_blockBytes hg.bitmaps,
        disjoint_blockBytes_freeCounts hg.blockBitmap⟩
    rw [marked, hshape.blockBitmap, bit_eq hm.frame hdisj (by omega)]
    exact hmarked
  · rw [hm.bit, Bool.or_eq_true, decide_eq_true_eq] at hbit
    exact hbit
  · have heq : (Ext2.findFreeInode img).1 - 1 + 1 = (Ext2.findFreeInode img).1 := by
      have hpos := hs.one_le
      omega
    rw [hm.bit, heq]
    simp

/-! ## The fields of an inode -/

/-- A field of an inode in two images. -/
def SameField (im im' : Image) (m off len : ℕ) : Prop :=
  load im' (inodeAddr im' m + off) len = load im (inodeAddr im m + off) len

theorem SameField.trans {im'' : Image} (h : SameField im im' m off len)
    (h' : SameField im' im'' m off len) : SameField im im'' m off len := Eq.trans h' h

section

variable (hs : Site img d b n) (h : Stage img im b n d) (h' : Stage img im' b n d)
include hs h h'

theorem Stage.sameShape : SameShape im im' := by
  have hshape := h.shape hs
  have hshape' := h'.shape hs
  exact ⟨hshape'.inodes.trans hshape.inodes.symm, hshape'.blocks.trans hshape.blocks.symm,
    hshape'.blockBitmap.trans hshape.blockBitmap.symm,
    hshape'.inodeBitmap.trans hshape.inodeBitmap.symm, hshape'.table.trans hshape.table.symm⟩

/-- Stores apart from the field. -/
theorem Stage.sameField (hf : Frame P im im') (hP : Disjoint (inodeField img m off len) P) :
    SameField im im' m off len := by
  refine load_inodeField hf (h.sameShape hs h') ?_
  rw [(h.shape hs).inodeField_eq]
  exact hP

/-- Stores into a block of entries or of data. -/
theorem Stage.sameField_block (hm₁ : 1 ≤ m) (hm₂ : m ≤ sInodesCount img) (hlen : off + len ≤ 128)
    (hx : x = b ∨ Spare img x) (hf : Frame (blockBytes x) im im') :
    SameField im im' m off len := by
  refine h.sameField hs h' hf (disjoint_inodeField_blockBytes hm₁ hm₂ hlen ?_)
  rcases hx with rfl | hx
  · exact hs.data.table
  · exact hs.spare_table hx

end

section

variable (hs : Site img d b n) (h : Stage img im b n d)
include hs h

theorem Stage.load_storeInode (hk : k + m ≤ 128) (v : ℕ) :
    load (store im (inodeAddr im n + k) m v)
      (inodeAddr (store im (inodeAddr im n + k) m v) n + k) m = v % 256 ^ m := by
  rw [((h.storeInode hs hk v).shape hs).inodeAddr_eq, ← (h.shape hs).inodeAddr_eq, load_store]

/-- A store into another field of `n`. -/
theorem Stage.sameField_storeInode (hk : k + m ≤ 128) (v : ℕ) (hlen : off + len ≤ 128)
    (hne : k + m ≤ off ∨ off + len ≤ k) :
    SameField im (store im (inodeAddr im n + k) m v) n off len := by
  refine h.sameField hs (h.storeInode hs hk v) (P := inodeField img n k m) ?_
    (disjoint_inodeField hs.one_le hs.one_le hlen hk (.inr (by omega)))
  rw [← (h.shape hs).inodeField_eq]
  exact frame_storeInode subset_rfl (.refl _ _) (.refl _) le_rfl le_rfl

/-- A store into `n`, seen from another inode. -/
theorem Stage.sameField_storeInode_ne {i : ℕ} (hk : k + m ≤ 128) (v : ℕ) (hi : 1 ≤ i) (hne : i ≠ n)
    (hlen : off + len ≤ 128) : SameField im (store im (inodeAddr im n + k) m v) i off len := by
  refine h.sameField hs (h.storeInode hs hk v) (P := inodeField img n k m) ?_
    (disjoint_inodeField hi hs.one_le hlen hk (.inl hne))
  rw [← (h.shape hs).inodeField_eq]
  exact frame_storeInode subset_rfl (.refl _ _) (.refl _) le_rfl le_rfl

/-- The link count of `d`, seen from `n`. -/
theorem Stage.sameField_setLinks (v : ℕ) (hne : n ≠ d) (hlen : off + len ≤ 128) :
    SameField im (setILinksCount im d v) n off len := by
  obtain ⟨hd₁, -⟩ := hs.sound.range hs.dir
  refine h.sameField hs (h.setLinks hs v) (P := inodeField img d 26 2) ?_
    (disjoint_inodeField hs.one_le hd₁ hlen (by omega) (.inl hne))
  rw [← (h.shape hs).inodeField_eq]
  exact frame_storeInode subset_rfl (.refl _ _) (.refl _) le_rfl le_rfl

theorem Stage.sameField_findFreeBlock {i : ℕ} (hi₁ : 1 ≤ i) (hi₂ : i ≤ sInodesCount img)
    (hlen : off + len ≤ 128) : SameField im (Ext2.findFreeBlock im).2 i off len := by
  have hg := hs.sound.geometry
  refine h.sameField hs (h.findFreeBlock hs).1 (findFreeBlock_marks (h.geometry hs)).frame ?_
  rw [(h.shape hs).blockBitmap]
  exact Set.disjoint_union_right.2
    ⟨disjoint_inodeField_blockBytes hi₁ hi₂ hlen hg.blockBitmap_table,
      disjoint_inodeField_freeCounts hg hi₁ hi₂ hlen⟩

end

/-! ## The block of the directory -/

section

variable (hs : Site img d b n) (h : Stage img im b n d)
include hs h

/-- A field of an inode is not in a block outside of the table. -/
theorem Stage.agree_store {x : ℕ} (hi₁ : 1 ≤ i) (hi₂ : i ≤ sInodesCount img) (hk : k + m ≤ 128)
    (v : ℕ) (hx : x < bgInodeTable img ∨ tableEnd img ≤ x * ext2BlockSize) :
    Agree im (store im (inodeAddr im i + k) m v) (x * ext2BlockSize)
      (x * ext2BlockSize + ext2BlockSize) := by
  refine agree_blockBytes
    (frame_storeInode subset_rfl (.refl _ im) (.refl im) (le_refl k) le_rfl) ?_
  rw [(h.shape hs).inodeField_eq]
  exact (disjoint_inodeField_blockBytes hi₁ hi₂ hk hx).symm

theorem Stage.agree_inode (hk : k + m ≤ 128) (v : ℕ) :
    Agree im (store im (inodeAddr im n + k) m v) (b * ext2BlockSize)
      (b * ext2BlockSize + ext2BlockSize) :=
  h.agree_store hs hs.one_le hs.le hk v hs.data.table

theorem Stage.agree_setLinks (v : ℕ) :
    Agree im (setILinksCount im d v) (b * ext2BlockSize)
      (b * ext2BlockSize + ext2BlockSize) := by
  obtain ⟨hd₁, hd₂⟩ := hs.sound.range hs.dir
  exact h.agree_store hs hd₁ hd₂ (show 26 + 2 ≤ 128 by decide) v hs.data.table

theorem Stage.agree_findFreeBlock :
    Agree im (Ext2.findFreeBlock im).2 (b * ext2BlockSize)
      (b * ext2BlockSize + ext2BlockSize) := by
  refine agree_blockBytes (findFreeBlock_marks (h.geometry hs)).frame ?_
  rw [(h.shape hs).blockBitmap]
  exact Set.disjoint_union_right.2 ⟨disjoint_blockBytes hs.data.blockBitmap,
    disjoint_blockBytes_freeCounts hs.data.three_le⟩

omit h in
theorem Site.agree_spare (hx : Spare img x) (hf : Frame (blockBytes x) im im') :
    Agree im im' (b * ext2BlockSize) (b * ext2BlockSize + ext2BlockSize) := by
  refine agree_blockBytes hf (disjoint_blockBytes ?_)
  rintro rfl
  exact hs.not_spare hx

end

/-! ## The loop of `copy` -/

/-- The strings that the loop copies are each shorter than a block. -/
def StringsFit : ℕ → Mem → List UInt8 → Prop
  | 0, _, _ => True
  | left + 1, buffer, data =>
    let chunk := data.take ext2BlockSize
    let buffer := write buffer 0 chunk
    chunk ≠ [] → (∀ s, cString buffer = some s → s.length < ext2BlockSize) ∧
      StringsFit left buffer (data.drop ext2BlockSize)

theorem strcpy_frame {s : Name} (hlen : s.length < ext2BlockSize) (im : Image) (x : ℕ) :
    Frame (blockBytes x) im (strcpy im (x * ext2BlockSize) s) := by
  refine (Frame.refl _ _).write fun i hi hlt => Set.mem_Ico.2 ⟨hi, ?_⟩
  rw [List.length_append, List.length_singleton] at hlt
  omega

/-- A new block of the file. -/
theorem Stage.addBlock (hs : Site img d b n) (h : Stage img im b n d) {index : ℕ}
    (hindex : index < 12) :
    Stage img (addBlock im n index).2 b n d ∧ Spare img (addBlock im n index).1 ∧
      Agree im (addBlock im n index).2 (b * ext2BlockSize) (b * ext2BlockSize + ext2BlockSize) ∧
      (∀ off len, off + len ≤ 28 → SameField im (addBlock im n index).2 n off len) ∧
      ∀ i off len, 1 ≤ i → i ≤ sInodesCount img → i ≠ n → off + len ≤ 128 →
        SameField im (addBlock im n index).2 i off len := by
  let x := (Ext2.findFreeBlock im).1
  let im₁ := (Ext2.findFreeBlock im).2
  let im₂ := setIBlock im₁ n index x
  let im₃ := setIBlocks im₂ n (iBlocks im₂ n + 1)
  have hadd : Ext2.addBlock im n index = (x, im₃) := rfl
  rw [hadd]
  have hk₂ : 40 + 4 * index + 4 ≤ 128 := by omega
  have hk₃ : 28 + 4 ≤ 128 := by decide
  have heq : im₂ = store im₁ (inodeAddr im₁ n + (40 + 4 * index)) 4 x := by
    rw [← Nat.add_assoc]
    rfl
  obtain ⟨h₁, hspare, -⟩ := h.findFreeBlock hs
  have h₂ : Stage img im₂ b n d := heq ▸ h₁.storeInode hs hk₂ x
  have h₃ : Stage img im₃ b n d := h₂.storeInode hs hk₃ _
  have hag : Agree im₁ im₂ (b * ext2BlockSize) (b * ext2BlockSize + ext2BlockSize) :=
    heq ▸ h₁.agree_inode hs hk₂ x
  refine ⟨h₃, hspare, ((h.agree_findFreeBlock hs).trans hag).trans (h₂.agree_inode hs hk₃ _),
    fun off len hlen => ?_, fun i off len hi₁ hi₂ hne hlen => ?_⟩
  · have hset : SameField im₁ im₂ n off len :=
      heq ▸ h₁.sameField_storeInode hs hk₂ x (by omega) (.inr (by omega))
    have hlast : SameField im₂ im₃ n off len :=
      h₂.sameField_storeInode hs hk₃ _ (by omega) (.inr hlen)
    exact ((h.sameField_findFreeBlock hs hs.one_le hs.le (by omega)).trans hset).trans hlast
  · have hset : SameField im₁ im₂ i off len :=
      heq ▸ h₁.sameField_storeInode_ne hs hk₂ x hi₁ hne hlen
    have hlast : SameField im₂ im₃ i off len :=
      h₂.sameField_storeInode_ne hs hk₃ _ hi₁ hne hlen
    exact ((h.sameField_findFreeBlock hs hi₁ hi₂ hlen).trans hset).trans hlast

section

-- `rfl` must not count to these numbers
attribute [local irreducible] ext2BlockSize imageSize

theorem copyBlocks_zero (n : ℕ) (im : Image) (buffer : Mem) (data : List UInt8) (total : ℕ) :
    copyBlocks n 0 im buffer data total = some (setISize im n total) := rfl

theorem copyBlocks_succ (n left : ℕ) (im : Image) (buffer : Mem) (data : List UInt8) (total : ℕ) :
    copyBlocks n (left + 1) im buffer data total =
      if data.take ext2BlockSize = [] then
        some (setISize (addBlock im n (11 - left)).2 n total)
      else
        match cString (write buffer 0 (data.take ext2BlockSize)) with
        | none => none
        | some s =>
          copyBlocks n left
            (strcpy (addBlock im n (11 - left)).2 ((addBlock im n (11 - left)).1 * ext2BlockSize) s)
            (write buffer 0 (data.take ext2BlockSize)) (data.drop ext2BlockSize)
            (total + (data.take ext2BlockSize).length) := rfl

end

/-- What the loop of `copy` leaves alone. -/
structure Copied (img im im' : Image) (b n d : ℕ) : Prop where
  stage : Stage img im' b n d
  block : Agree im im' (b * ext2BlockSize) (b * ext2BlockSize + ext2BlockSize)
  own : ∀ off len, off + len ≤ 4 ∨ 8 ≤ off ∧ off + len ≤ 28 → SameField im im' n off len
  others : ∀ i off len, 1 ≤ i → i ≤ sInodesCount img → i ≠ n → off + len ≤ 128 →
    SameField im im' i off len

theorem Copied.trans {im'' : Image} (h : Copied img im im' b n d)
    (h' : Copied img im' im'' b n d) : Copied img im im'' b n d :=
  ⟨h'.stage, h.block.trans h'.block, fun off len hlen => (h.own off len hlen).trans
    (h'.own off len hlen), fun i off len hi₁ hi₂ hne hlen =>
    (h.others i off len hi₁ hi₂ hne hlen).trans (h'.others i off len hi₁ hi₂ hne hlen)⟩

theorem Stage.copied_setISize (hs : Site img d b n) (h : Stage img im b n d) (v : ℕ) :
    Copied img im (setISize im n v) b n d :=
  have hk : 4 + 4 ≤ 128 := by decide
  ⟨h.storeInode hs hk v, h.agree_inode hs hk v, fun _ _ hlen =>
    h.sameField_storeInode hs hk v (by omega) (by omega), fun _ _ _ hi₁ _ hne hlen =>
    h.sameField_storeInode_ne hs hk v hi₁ hne hlen⟩

/-- **The loop of `copy`** changes only the new inode's size and blocks, and blocks that were not in
use. -/
theorem Stage.copyBlocks (hs : Site img d b n) {left : ℕ} (hleft : left ≤ 12)
    {buffer : Mem} {data : List UInt8} {total : ℕ} (h : Stage img im b n d)
    (hfit : StringsFit left buffer data)
    (hcopy : copyBlocks n left im buffer data total = some im') : Copied img im im' b n d := by
  induction left generalizing im buffer data total with
  | zero =>
    rw [copyBlocks_zero] at hcopy
    obtain rfl := Option.some.inj hcopy
    exact h.copied_setISize hs total
  | succ left ih =>
    obtain ⟨hadd, hspare, hag, hown, hothers⟩ := h.addBlock hs (show 11 - left < 12 by omega)
    have hadded : Copied img im (Ext2.addBlock im n (11 - left)).2 b n d :=
      ⟨hadd, hag, fun off len hlen => hown off len (by omega), hothers⟩
    rw [copyBlocks_succ] at hcopy
    split at hcopy
    · obtain rfl := Option.some.inj hcopy
      exact hadded.trans (hadd.copied_setISize hs total)
    · rename_i hchunk
      obtain ⟨hstring, hrest⟩ := hfit hchunk
      split at hcopy
      · cases hcopy
      · rename_i s hcstring
        have hframe := strcpy_frame (hstring s hcstring) (Ext2.addBlock im n (11 - left)).2
          (Ext2.addBlock im n (11 - left)).1
        have hblock := hadd.spare hs hspare hframe
        refine (hadded.trans ⟨hblock, hs.agree_spare hspare hframe, fun off len hlen => ?_,
          fun i off len hi₁ hi₂ _ hlen => ?_⟩).trans (ih (by omega) hblock hrest hcopy)
        · exact hadd.sameField_block hs hblock hs.one_le hs.le (by omega) (.inr hspare) hframe
        · exact hadd.sameField_block hs hblock hi₁ hi₂ hlen (.inr hspare) hframe

/-! ## `allocate` for a file -/

/-- The stores of `allocate` for a regular file. -/
def linkFile (img : Image) (n : ℕ) : Image :=
  let img := setIMode img n ext2SIfreg
  setILinksCount img n (iLinksCount img n + 1)

theorem allocate_file_eq (im : Image) (n parent : ℕ) :
    allocate im n parent ext2SIfreg [] = if n = 0 then none else some (linkFile im n) := rfl

structure LinkedFile (img im im' : Image) (b n d : ℕ) : Prop where
  stage : Stage img im' b n d
  frame : Frame (inodeField im n 0 28) im im'
  block : Agree im im' (b * ext2BlockSize) (b * ext2BlockSize + ext2BlockSize)
  mode : iMode im' n = ext2SIfreg
  links : iLinksCount im' n = (iLinksCount im n + 1) % 65536
  own : ∀ off len, 28 ≤ off → off + len ≤ 128 → SameField im im' n off len
  others : ∀ i off len, 1 ≤ i → i ≠ n → off + len ≤ 128 → SameField im im' i off len

theorem Stage.linkFile (hs : Site img d b n) (h : Stage img im b n d) :
    LinkedFile img im (linkFile im n) b n d := by
  let im₁ := setIMode im n ext2SIfreg
  let im₂ := setILinksCount im₁ n (iLinksCount im₁ n + 1)
  have hk₁ : 0 + 2 ≤ 128 := by decide
  have hk₂ : 26 + 2 ≤ 128 := by decide
  have h₁ : Stage img im₁ b n d := h.storeInode hs hk₁ _
  have h₂ : Stage img im₂ b n d := h₁.storeInode hs hk₂ _
  have hframe₁ : Frame (inodeField im n 0 28) im im₁ :=
    frame_storeInode (k := 0) subset_rfl (.refl _ _) (.refl _) le_rfl (by decide)
  refine ⟨h₂, frame_storeInode subset_rfl hframe₁ (h.sameShape hs h₁) (by decide) (by decide),
    (h.agree_inode hs hk₁ _).trans (h₁.agree_inode hs hk₂ _), ?_, ?_,
    fun off len hoff hlen => ?_, fun i off len hi hne hlen => ?_⟩
  · have hload : load im₁ (inodeAddr im₁ n + 0) 2 = ext2SIfreg := h.load_storeInode hs hk₁ _
    have hkept : SameField im₁ im₂ n 0 2 :=
      h₁.sameField_storeInode hs hk₂ _ (by decide) (by decide)
    exact Eq.trans hkept hload
  · have hload : load im₂ (inodeAddr im₂ n + 26) 2 = (iLinksCount im₁ n + 1) % 256 ^ 2 :=
      h₁.load_storeInode hs hk₂ _
    have hkept : iLinksCount im₁ n = iLinksCount im n :=
      h.sameField_storeInode hs hk₁ ext2SIfreg (show 26 + 2 ≤ 128 by decide) (.inl (by decide))
    rw [hkept] at hload
    exact hload
  · exact (h.sameField_storeInode hs hk₁ _ hlen (by omega)).trans
      (h₁.sameField_storeInode hs hk₂ _ hlen (by omega))
  · exact (h.sameField_storeInode_ne hs hk₁ _ hi hne hlen).trans
      (h₁.sameField_storeInode_ne hs hk₂ _ hi hne hlen)

/-! ## `allocate` for a symbolic link -/

theorem allocate_link_eq (im : Image) (n parent : ℕ) (path : Name) :
    allocate im n parent ext2SIflnk path =
      if n = 0 then none
      else
        let free := findFreeBlock (setIMode im n ext2SIflnk)
        let im' := strcpy free.2 (free.1 * ext2BlockSize) path
        some (setISize (setIBlock im' n 0 free.1) n path.length) := rfl

/-- Inode `n` has become a symbolic link with block `x`, which holds the path. -/
structure LinkedPath (img im im' : Image) (b n d x : ℕ) (path : Name) : Prop where
  stage : Stage img im' b n d
  block : Agree im im' (b * ext2BlockSize) (b * ext2BlockSize + ext2BlockSize)
  mode : iMode im' n = ext2SIflnk
  size : iSize im' n = path.length
  first : iBlock im' n 0 = x
  content : Bytes.read im' (x * ext2BlockSize) path.length = path
  own : ∀ off len, 26 ≤ off → off + len ≤ 40 → SameField im im' n off len
  bits : ∀ i < sInodesCount img, bit im' (bgInodeBitmap img) i = bit im (bgInodeBitmap img) i

theorem Stage.linkPath (hs : Site img d b n) (h : Stage img im b n d) {path : Name}
    (hlen : path.length < ext2BlockSize) (halloc : allocate im n k ext2SIflnk path = some im') :
    ∃ x, LinkedPath img im im' b n d x path := by
  have hn : n ≠ 0 := Nat.one_le_iff_ne_zero.1 hs.one_le
  let im₁ := setIMode im n ext2SIflnk
  let x := (Ext2.findFreeBlock im₁).1
  let im₂ := (Ext2.findFreeBlock im₁).2
  let im₃ := strcpy im₂ (x * ext2BlockSize) path
  let im₄ := setIBlock im₃ n 0 x
  let im₅ := setISize im₄ n path.length
  rw [allocate_link_eq, if_neg hn] at halloc
  obtain rfl : im₅ = im' := Option.some.inj halloc
  have hk₁ : 0 + 2 ≤ 128 := by decide
  have hk₄ : 40 + 4 ≤ 128 := by decide
  have hk₅ : 4 + 4 ≤ 128 := by decide
  have h₁ : Stage img im₁ b n d := h.storeInode hs hk₁ _
  obtain ⟨h₂, hspare, -⟩ := h₁.findFreeBlock hs
  have hframe₃ : Frame (blockBytes x) im₂ im₃ := strcpy_frame hlen im₂ x
  have h₃ : Stage img im₃ b n d := h₂.spare hs hspare hframe₃
  have h₄ : Stage img im₄ b n d := h₃.storeInode hs hk₄ x
  have h₅ : Stage img im₅ b n d := h₄.storeInode hs hk₅ _
  have hxle : x ≤ 8192 := hs.spare_le hspare
  -- the fields of `n` that the stores between the first one and those of the block leave alone
  have hkept : ∀ off len, off + len ≤ 128 → SameField im₁ im₃ n off len := fun off len hoff =>
    (h₁.sameField_findFreeBlock hs hs.one_le hs.le hoff).trans
      (h₂.sameField_block hs h₃ hs.one_le hs.le hoff (.inr hspare) hframe₃)
  refine ⟨x, h₅, ?_, ?_, ?_, ?_, ?_, fun off len hoff hend => ?_, fun i hi => ?_⟩
  · exact ((h.agree_inode hs hk₁ _).trans (h₁.agree_findFreeBlock hs)).trans
      ((hs.agree_spare hspare hframe₃).trans
        ((h₃.agree_inode hs hk₄ x).trans (h₄.agree_inode hs hk₅ _)))
  · have hload : load im₁ (inodeAddr im₁ n + 0) 2 = ext2SIflnk := h.load_storeInode hs hk₁ _
    have hlast : SameField im₁ im₅ n 0 2 := (hkept 0 2 (by decide)).trans
      ((h₃.sameField_storeInode hs hk₄ x (by decide) (by decide)).trans
        (h₄.sameField_storeInode hs hk₅ _ (by decide) (by decide)))
    exact Eq.trans hlast hload
  · have hload : load im₅ (inodeAddr im₅ n + 4) 4 = path.length % 256 ^ 4 :=
      h₄.load_storeInode hs hk₅ _
    have hsize : ext2BlockSize = 1024 := rfl
    exact hload.trans (Nat.mod_eq_of_lt (by omega))
  · have hload : load im₄ (inodeAddr im₄ n + 40) 4 = x % 256 ^ 4 := h₃.load_storeInode hs hk₄ x
    have hlast : SameField im₄ im₅ n 40 4 :=
      h₄.sameField_storeInode hs hk₅ _ (by decide) (by decide)
    exact (Eq.trans hlast hload).trans (Nat.mod_eq_of_lt (by omega))
  · have htable := hs.spare_table hspare
    have hag₄ : Agree im₃ im₄ (x * ext2BlockSize) (x * ext2BlockSize + ext2BlockSize) :=
      h₃.agree_store hs hs.one_le hs.le hk₄ x htable
    have hag₅ : Agree im₄ im₅ (x * ext2BlockSize) (x * ext2BlockSize + ext2BlockSize) :=
      h₄.agree_store hs hs.one_le hs.le hk₅ _ htable
    rw [← read_congr ((hag₄.trans hag₅).mono le_rfl (by omega))]
    exact read_write im₂ (x * ext2BlockSize) path [0]
  · have hlen : off + len ≤ 128 := by omega
    exact ((h.sameField_storeInode hs hk₁ _ hlen (by omega)).trans (hkept off len hlen)).trans
      ((h₃.sameField_storeInode hs hk₄ x hlen (by omega)).trans
        (h₄.sameField_storeInode hs hk₅ _ hlen (by omega)))
  · have hblock : Frame (innerBytes img b n d) im₂ im₃ :=
      hframe₃.mono fun a ha => .inr ⟨x, hspare, ha⟩
    have hlast := (hblock.trans (h₃.frameInode hs hk₄ x)).trans (h₄.frameInode hs hk₅ path.length)
    exact ((hs.bit_inner hlast hi).trans (h₁.bit_findFreeBlock hs hi)).trans
      (hs.bit_inner (h.frameInode hs hk₁ ext2SIflnk) hi)

/-! ## The block of a new directory -/

/-- The stores of `allocate` for an entry `.` or `..`. -/
def dotEntry (img : Image) (pos inode len : ℕ) (name : Name) : Image :=
  let img := setRecLen img pos len
  let img := strcpy img (pos + 8) name
  let img := setNameLen img pos name.length
  let img := setFileType img pos ext2FtDir
  setDeInode img pos inode

def newDots (img : Image) (block inode parent : ℕ) : Image :=
  let pos := block * ext2BlockSize
  let img := dotEntry img pos inode 12 [dot]
  dotEntry img (pos + recLen img pos) parent 1012 [dot, dot]

theorem store_comm {m : Mem} {a c k l v w : ℕ} (h : a + k ≤ c ∨ c + l ≤ a) :
    store (store m a k v) c l w = store (store m c l w) a k v := by
  funext i
  unfold store
  split
  · rw [if_neg (by omega)]
  · rfl

theorem store_write_comm {m : Mem} {a c k v : ℕ} {bytes : List UInt8}
    (h : a + k ≤ c ∨ c + bytes.length ≤ a) :
    write (store m a k v) c bytes = store (write m c bytes) a k v := by
  funext i
  unfold write store
  dsimp only
  by_cases hi : a ≤ i ∧ i < a + k
  · rw [if_pos hi, if_pos hi]
    split
    · rw [List.getD_eq_getElem?_getD, List.getElem?_eq_none (by omega), Option.getD_none]
    · rfl
  · rw [if_neg hi, if_neg hi]

/-- The order of the stores does not matter. -/
theorem dotEntry_eq (img : Image) (pos inode len : ℕ) (name : Name) :
    dotEntry img pos inode len name = putEntry img pos inode len ext2FtDir name := by
  unfold dotEntry putEntry setRecLen setNameLen setFileType setDeInode strcpy
  refine congrArg (fun img => store img pos 4 inode) ?_
  rw [store_write_comm (by omega), store_comm (a := pos + 6) (c := pos + 7) (by omega),
    store_comm (a := pos + 4) (c := pos + 7) (by omega), store_write_comm (by omega),
    store_comm (a := pos + 4) (c := pos + 6) (by omega)]

/-- Block `x` is that of a directory `n` in `d` that has no other entries than `.` and `..`. -/
structure NewDir (img : Image) (x n d : ℕ) : Prop where
  ok : BlockOk img x
  entries : blockEntries img x = [x * ext2BlockSize, x * ext2BlockSize + 12]
  here : entryAt img (x * ext2BlockSize) = ⟨n, ext2FtDir, [dot]⟩
  up : entryAt img (x * ext2BlockSize + 12) = ⟨d, ext2FtDir, [dot, dot]⟩

/-- Changes elsewhere may follow. -/
theorem NewDir.congr (h : NewDir im x n d)
    (hag : Agree im im' (x * ext2BlockSize) (x * ext2BlockSize + ext2BlockSize)) :
    NewDir im' x n d := by
  obtain ⟨hok, hlist, hentries, -⟩ := h.ok.congr hag
  have hlist' := h.entries
  refine ⟨hok, hlist.trans hlist', ?_, ?_⟩
  · rw [hentries _ (by simp [hlist']), h.here]
  · rw [hentries _ (by simp [hlist']), h.up]

theorem newDots_spec (img : Image) (x : ℕ) (hn : n < 2 ^ 32) (hd : d < 2 ^ 32) :
    Frame (blockBytes x) img (newDots img x n d) ∧ NewDir (newDots img x n d) x n d := by
  have hsize : ext2BlockSize = 1024 := rfl
  let a := x * ext2BlockSize
  let img₁ := putEntry img a n 12 ext2FtDir [dot]
  let img₂ := putEntry img₁ (a + 12) d 1012 ext2FtDir [dot, dot]
  obtain ⟨hframe₁, hentry₁, hlen₁, hname₁⟩ := putEntry_spec img a
    (show ([dot] : Name).length < 256 by decide) hn (show ext2FtDir < 256 by decide)
    (show 12 < 65536 by decide)
  obtain ⟨hframe₂, hentry₂, hlen₂, hname₂⟩ := putEntry_spec img₁ (a + 12)
    (show ([dot, dot] : Name).length < 256 by decide) hd (show ext2FtDir < 256 by decide)
    (show 1012 < 65536 by decide)
  have heq : newDots img x n d = img₂ := by
    unfold newDots
    dsimp only
    rw [dotEntry_eq, dotEntry_eq, hlen₁]
  rw [heq]
  have hag : Agree img₁ img₂ a (a + 12) := hframe₂.agree fun i hi hlt => by
    rw [Set.mem_Ico]
    omega
  -- the first entry as the second one leaves it
  have hkeep : entryAt img₂ a = entryAt img₁ a ∧ nameLen img₂ a = nameLen img₁ a :=
    entryAt_congr (hag.mono (by omega) (by omega)) (hag.mono (by omega) (by rw [hname₁]; simp))
  have hkeeplen : recLen img₂ a = 12 := by
    rw [recLen_congr (hag.mono (by omega) (by omega)), hlen₁]
  have htiles : Tiles (recLen img₂) (x * ext2BlockSize) (x * ext2BlockSize + ext2BlockSize)
      [a, a + 12] := by
    rw [Tiles.cons_iff, Tiles.cons_iff, Tiles.nil_iff, hkeeplen, hlen₂]
    refine ⟨rfl, by omega, rfl, by omega, ?_⟩
    omega
  obtain ⟨hok, hlist⟩ := BlockOk.of_tiles htiles fun r hr => by
    simp only [List.mem_cons, List.not_mem_nil, or_false] at hr
    rcases hr with rfl | rfl
    · rw [hkeeplen, hkeep.2, hname₁]
      exact ⟨le_rfl, by decide⟩
    · rw [hlen₂, hname₂]
      exact ⟨by decide, by decide⟩
  refine ⟨?_, hok, hlist, hkeep.1.trans hentry₁, hentry₂⟩
  refine Frame.trans (hframe₁.mono fun i hi => ?_) (hframe₂.mono fun i hi => ?_)
  · simp only [blockBytes, Set.mem_Ico, List.length_singleton] at hi ⊢
    omega
  · simp only [blockBytes, Set.mem_Ico, List.length_cons, List.length_nil] at hi ⊢
    omega

/-! ## `allocate` for a directory -/

/-- The first stores, all of them into the inode. -/
def dirInode (img : Image) (n : ℕ) : Image :=
  setISize (setIBlocks (setILinksCount (setIMode img n ext2SIfdir) n 2) n 2) n ext2BlockSize

theorem allocate_dir_eq (im : Image) (hn : n ≠ 0) (hd : d ≠ 0) :
    allocate im n d ext2SIfdir [] =
      let free := findFreeBlock (dirInode im n)
      let im' := newDots (setIBlock free.2 n 0 free.1) free.1 n d
      some (setILinksCount im' d (iLinksCount im' d + 1)) := by
  have hreg : ¬ modeType ext2SIfdir = ext2SIfreg := by decide
  have hlnk : ¬ modeType ext2SIfdir = ext2SIflnk := by decide
  have hdir : modeType ext2SIfdir = ext2SIfdir := by decide
  unfold allocate
  simp only [if_neg hn, if_neg hreg, if_neg hlnk, if_pos hdir, if_neg hd]
  rfl

theorem findFreeBlock_congr (h : SameShape im im')
    (hag : Agree im im' (bgBlockBitmap im * ext2BlockSize)
      (bgBlockBitmap im * ext2BlockSize + ext2BlockSize)) (hcount : sBlocksCount im ≤ 8192) :
    (findFreeBlock im').1 = (findFreeBlock im).1 := by
  have hsize : ext2BlockSize = 1024 := rfl
  have hbit : ∀ i ∈ List.range (sBlocksCount im),
      (!bit im' (bgBlockBitmap im) i) = !bit im (bgBlockBitmap im) i := by
    intro i hi
    have hlt := List.mem_range.1 hi
    rw [bit, bit, hag _ (by omega) (by omega)]
  have hfind : (List.range (sBlocksCount im)).find? (fun i => !bit im' (bgBlockBitmap im) i) =
      (List.range (sBlocksCount im)).find? fun i => !bit im (bgBlockBitmap im) i := by
    exact List.find?_congr hbit
  unfold findFreeBlock
  rw [h.blocks, h.blockBitmap, hfind]
  cases (List.range (sBlocksCount im)).find? fun i => !bit im (bgBlockBitmap im) i with
  | none => rfl
  | some i => rfl

section

variable (hs : Site img d b n) (h : Stage img im b n d)
include hs h

theorem Stage.dirInode : Stage img (dirInode im n) b n d ∧
    Frame (inodeField im n 0 128) im (dirInode im n) ∧
    iMode (dirInode im n) n = ext2SIfdir ∧ iLinksCount (dirInode im n) n = 2 ∧
    ∀ off len, 32 ≤ off → off + len ≤ 128 → SameField im (dirInode im n) n off len := by
  let im₁ := setIMode im n ext2SIfdir
  let im₂ := setILinksCount im₁ n 2
  let im₃ := setIBlocks im₂ n 2
  have h₁ : Stage img im₁ b n d := h.storeInode hs (show 0 + 2 ≤ 128 by decide) _
  have h₂ : Stage img im₂ b n d := h₁.storeInode hs (show 26 + 2 ≤ 128 by decide) _
  have h₃ : Stage img im₃ b n d := h₂.storeInode hs (show 28 + 4 ≤ 128 by decide) _
  have h₄ : Stage img (Ext2.dirInode im n) b n d :=
    h₃.storeInode hs (show 4 + 4 ≤ 128 by decide) _
  refine ⟨h₄, ?_, ?_, ?_, fun off len hoff hlen => ?_⟩
  · refine frame_storeInode subset_rfl (frame_storeInode subset_rfl (frame_storeInode subset_rfl
      (frame_storeInode (k := 0) subset_rfl (.refl _ _) (.refl _) ?_ ?_) (h.sameShape hs h₁) ?_ ?_)
      (h.sameShape hs h₂) ?_ ?_) (h.sameShape hs h₃) ?_ ?_
    all_goals decide
  · have hload : load im₁ (inodeAddr im₁ n + 0) 2 = ext2SIfdir :=
      h.load_storeInode hs (show 0 + 2 ≤ 128 by decide) _
    have hkept : SameField im₁ (Ext2.dirInode im n) n 0 2 :=
      ((h₁.sameField_storeInode hs (show 26 + 2 ≤ 128 by decide) _ (by decide) (by decide)).trans
        (h₂.sameField_storeInode hs (show 28 + 4 ≤ 128 by decide) _ (by decide) (by decide))).trans
        (h₃.sameField_storeInode hs (show 4 + 4 ≤ 128 by decide) _ (by decide) (by decide))
    exact Eq.trans hkept hload
  · have hload : load im₂ (inodeAddr im₂ n + 26) 2 = 2 :=
      h₁.load_storeInode hs (show 26 + 2 ≤ 128 by decide) _
    have hkept : SameField im₂ (Ext2.dirInode im n) n 26 2 :=
      (h₂.sameField_storeInode hs (show 28 + 4 ≤ 128 by decide) _ (by decide) (by decide)).trans
        (h₃.sameField_storeInode hs (show 4 + 4 ≤ 128 by decide) _ (by decide) (by decide))
    exact Eq.trans hkept hload
  · exact (((h.sameField_storeInode hs (show 0 + 2 ≤ 128 by decide) _ hlen (by omega)).trans
      (h₁.sameField_storeInode hs (show 26 + 2 ≤ 128 by decide) _ hlen (by omega))).trans
      (h₂.sameField_storeInode hs (show 28 + 4 ≤ 128 by decide) _ hlen (by omega))).trans
      (h₃.sameField_storeInode hs (show 4 + 4 ≤ 128 by decide) _ hlen (by omega))

/-- **`allocate` for a directory**, with the block `x` that was found. -/
structure NewInode (img im im' : Image) (b n d x : ℕ) : Prop where
  stage : Stage img im' b n d
  spare : Spare img x
  marked : x ≠ 0 → marked im' x = true
  dots : NewDir im' x n d
  block : Agree im im' (b * ext2BlockSize) (b * ext2BlockSize + ext2BlockSize)
  mode : iMode im' n = ext2SIfdir
  links : iLinksCount im' n = 2
  first : iBlock im' n 0 = x
  later : ∀ k, 1 ≤ k → k ≤ 12 → iBlock im' n k = iBlock im n k
  parent : iLinksCount im' d = (iLinksCount im d + 1) % 65536

theorem Stage.allocateDir (halloc : allocate im n d ext2SIfdir [] = some im') :
    NewInode img im im' b n d (Ext2.findFreeBlock im).1 := by
  have hg := hs.sound.geometry
  have hinodes := hg.inodes
  have hblocks := hg.blocks
  have hn₁ := hs.one_le
  have hn₂ := hs.le
  obtain ⟨hd₁, hd₂⟩ := hs.sound.range hs.dir
  have hne := hs.ne_dir
  let im₁ := Ext2.dirInode im n
  let x := (Ext2.findFreeBlock im₁).1
  let im₂ := (Ext2.findFreeBlock im₁).2
  let im₃ := setIBlock im₂ n 0 x
  let im₄ := newDots im₃ x n d
  let im₅ := setILinksCount im₄ d (iLinksCount im₄ d + 1)
  rw [allocate_dir_eq im (by omega) (by omega)] at halloc
  obtain rfl : im₅ = im' := Option.some.inj halloc
  obtain ⟨h₁, hframe₁, hmode, hlinks, hkept₁⟩ := h.dirInode hs
  obtain ⟨h₂, hspare, hmarked⟩ := h₁.findFreeBlock hs
  have h₃ : Stage img im₃ b n d := h₂.storeInode hs (show 40 + 4 ≤ 128 by decide) x
  obtain ⟨hframe₄, hdots⟩ := newDots_spec im₃ x (show n < 2 ^ 32 by omega)
    (show d < 2 ^ 32 by omega)
  have h₄ : Stage img im₄ b n d := h₃.spare hs hspare hframe₄
  have h₅ : Stage img im₅ b n d := h₄.setLinks hs _
  have hx : x = (Ext2.findFreeBlock im).1 := by
    have hgim := h.geometry hs
    refine findFreeBlock_congr (h.sameShape hs h₁) (agree_blockBytes hframe₁ ?_) hgim.blocks
    rw [(h.shape hs).blockBitmap, (h.shape hs).inodeField_eq]
    exact (disjoint_inodeField_blockBytes hn₁ hn₂ (by decide) hg.blockBitmap_table).symm
  have hxle : x ≤ 8192 := hs.spare_le hspare
  have hag₁ := agree_blockBytes hframe₁ (b := b) (by
    rw [(h.shape hs).inodeField_eq]
    exact (disjoint_inodeField_blockBytes hn₁ hn₂ (by decide) hs.data.table).symm)
  -- the fields of `n` that the stores after the first ones leave alone
  have hkept : ∀ off len, off + len ≤ 40 ∨ 44 ≤ off ∧ off + len ≤ 128 →
      SameField im₁ im₅ n off len := by
    intro off len hoff
    have hlen : off + len ≤ 128 := by omega
    exact ((h₁.sameField_findFreeBlock hs hn₁ hn₂ hlen).trans
      (h₂.sameField_storeInode hs (show 40 + 4 ≤ 128 by decide) x hlen (by omega))).trans
      ((h₃.sameField_block hs h₄ hn₁ hn₂ hlen (.inr hspare) hframe₄).trans
        (h₄.sameField_setLinks hs _ hne hlen))
  have hparent : SameField im im₄ d 26 2 := by
    have hdisj : Disjoint (inodeField img d 26 2) (inodeField im n 0 128) := by
      rw [(h.shape hs).inodeField_eq]
      exact disjoint_inodeField hd₁ hn₁ (by decide) (by decide) (.inl hne.symm)
    exact ((h.sameField hs h₁ hframe₁ hdisj).trans
      (h₁.sameField_findFreeBlock hs hd₁ hd₂ (by decide))).trans
      ((h₂.sameField_storeInode_ne hs (show 40 + 4 ≤ 128 by decide) x hd₁ hne.symm
        (by decide)).trans (h₃.sameField_block hs h₄ hd₁ hd₂ (by decide) (.inr hspare) hframe₄))
  have hrest : Frame (innerBytes img b n d) im₂ im₅ :=
    ((h₂.frameInode hs (show 40 + 4 ≤ 128 by decide) x).trans
      (hframe₄.mono fun i hi => .inr ⟨x, hspare, hi⟩)).trans (h₄.frameLinks hs _)
  rw [← hx]
  refine ⟨h₅, hspare, fun hne => ?_, ?_, ?_, ?_, ?_, ?_, fun k hk₁ hk₂ => ?_, ?_⟩
  · rw [h₂.marked_inner hs hrest hxle]
    exact hmarked hne
  · exact hdots.congr
      (h₄.agree_store hs hd₁ hd₂ (show 26 + 2 ≤ 128 by decide) _ (hs.spare_table hspare))
  · exact (hag₁.trans ((h₁.agree_findFreeBlock hs).trans
      (h₂.agree_inode hs (show 40 + 4 ≤ 128 by decide) x))).trans
      ((hs.agree_spare hspare hframe₄).trans (h₄.agree_setLinks hs _))
  · exact Eq.trans (hkept 0 2 (by decide)) hmode
  · exact Eq.trans (hkept 26 2 (by decide)) hlinks
  · have hload : load im₃ (inodeAddr im₃ n + 40) 4 = x % 256 ^ 4 :=
      h₂.load_storeInode hs (show 40 + 4 ≤ 128 by decide) x
    have hlast : SameField im₃ im₅ n 40 4 :=
      (h₃.sameField_block hs h₄ hn₁ hn₂ (by decide) (.inr hspare) hframe₄).trans
        (h₄.sameField_setLinks hs _ hne (by decide))
    have heq : x % 256 ^ 4 = x := Nat.mod_eq_of_lt (by omega)
    exact (Eq.trans hlast hload).trans heq
  · have hload := Eq.trans (hkept (40 + 4 * k) 4 (by omega)) (hkept₁ (40 + 4 * k) 4 (by omega)
      (by omega))
    rw [← Nat.add_assoc, ← Nat.add_assoc] at hload
    exact hload
  · have hload : load im₅ (inodeAddr im₅ d + 26) 2 = (iLinksCount im₄ d + 1) % 256 ^ 2 := by
      rw [(h₅.shape hs).inodeAddr_eq, ← (h₄.shape hs).inodeAddr_eq]
      exact load_store _ _ _ _
    have heq : iLinksCount im₄ d = iLinksCount im d := hparent
    rw [heq] at hload
    exact hload

end

end Cscc69.Ext2
