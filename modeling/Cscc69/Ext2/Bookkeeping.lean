import Cscc69.Ext2.LastLink
import Cscc69.Ext2.Links

/-!
# The allocation of inodes and blocks

In a consistent image the bitmaps mark what is reserved, the inodes that have a name and their data
blocks, each block has one place in one inode, and the free counts of the superblock and of the
group descriptor are those of the clear bits (`Bookkept`).

No tool writes to the superblock. `find_free_inode`, `find_free_block` and `remove_link` change a
bit and the count in the group descriptor alone, so a run that makes a file, or removes the last
name of one, leaves the superblock behind; `remove_link` frees no blocks, and may clear the bit of
another inode. A run that gives an inode a second name, or takes one of several, keeps the image
consistent (`Command.KeepsBooks`).

Main result: `bookkept_run`.
-/

namespace Cscc69.Ext2

open Bytes Records Naming

variable {img img' : Image} {n m b d k p q r x level : ℕ} {name path path₁ path₂ : Name}
  {t : Tables} {env : Env} {gone come : Set ℕ}

/-! ## Consistent images -/

/-- The blocks that a pointer leads to through `level` blocks of pointers, and these. -/
def pointedBlocks (img : Image) : ℕ → ℕ → List ℕ
  | 0, b => if b = 0 then [] else [b]
  | level + 1, b =>
    if b = 0 then []
    else b :: (List.range 256).flatMap fun k =>
      pointedBlocks img level (load img (b * ext2BlockSize + 4 * k) 4)

/-- A symbolic link without blocks keeps its target in place of the pointers. -/
def IsFastLink (img : Image) (n : ℕ) : Prop :=
  modeType (iMode img n) = ext2SIflnk ∧ iBlocks img n = 0

instance (img : Image) (n : ℕ) : Decidable (IsFastLink img n) := by
  unfold IsFastLink; infer_instance

/-- The data blocks of an inode. Twelve of its fifteen pointers are direct. -/
def inodeBlocks (img : Image) (n : ℕ) : List ℕ :=
  if IsFastLink img n then []
  else (List.range 15).flatMap fun k => pointedBlocks img (k - 11) (iBlock img n k)

/-- The first eleven inodes are reserved; the others are in use as long as they have a name. -/
def Needed (img : Image) (n : ℕ) : Prop :=
  1 ≤ n ∧ n ≤ sInodesCount img ∧ (n ≤ 11 ∨ ¬ Unnamed img n)

/-- How many of the first bits of a bitmap are clear. -/
def clearBits (img : Image) (bitmap count : ℕ) : ℕ :=
  ((List.range count).filter fun i => !bit img bitmap i).length

/-- Both free counts. -/
structure FreeCounts (img : Image) (blocks inodes : ℕ) : Prop where
  superBlocks : sFreeBlocksCount img = blocks
  superInodes : sFreeInodesCount img = inodes
  groupBlocks : bgFreeBlocksCount img = blocks
  groupInodes : bgFreeInodesCount img = inodes

structure Bookkept (img : Image) : Prop where
  inodes : ∀ n, 1 ≤ n → n ≤ sInodesCount img →
    (bit img (bgInodeBitmap img) (n - 1) = true ↔ Needed img n)
  blocks : ∀ b, 1 ≤ b → b < sBlocksCount img →
    (marked img b = true ↔ ¬ IsData img b ∨ ∃ n, Needed img n ∧ b ∈ inodeBlocks img n)
  data : ∀ n, Needed img n → ∀ b ∈ inodeBlocks img n, IsData img b
  once : ∀ n, Needed img n → (inodeBlocks img n).Nodup
  apart : ∀ n m, Needed img n → Needed img m → ∀ b ∈ inodeBlocks img n,
    b ∈ inodeBlocks img m → n = m
  free : FreeCounts img (clearBits img (bgBlockBitmap img) (sBlocksCount img))
    (clearBits img (bgInodeBitmap img) (sInodesCount img))

/-! ## The blocks of a directory -/

theorem pointedBlocks_congr (h : ∀ x ∈ pointedBlocks img level p,
    Agree img img' (x * ext2BlockSize) (x * ext2BlockSize + ext2BlockSize)) :
    pointedBlocks img' level p = pointedBlocks img level p := by
  induction level generalizing p with
  | zero => rfl
  | succ level ih =>
    rw [pointedBlocks, pointedBlocks]
    split
    · rfl
    · rename_i hp
      rw [pointedBlocks, if_neg hp] at h
      have hag := h p List.mem_cons_self
      refine congrArg (p :: ·) (List.flatMap_congr fun k hk => ?_)
      have hsize : ext2BlockSize = 1024 := rfl
      have hk' := List.mem_range.1 hk
      have hload : load img' (p * ext2BlockSize + 4 * k) 4 =
          load img (p * ext2BlockSize + 4 * k) 4 :=
        (load_congr (hag.mono (by omega) (by omega))).symm
      rw [hload]
      exact ih fun x hx => h x (List.mem_cons_of_mem _ (List.mem_flatMap.2 ⟨k, hk, hx⟩))

theorem mem_inodeBlocks (hslow : ¬ IsFastLink img n) : x ∈ inodeBlocks img n ↔
    ∃ k < 15, x ∈ pointedBlocks img (k - 11) (iBlock img n k) := by
  rw [inodeBlocks, if_neg hslow, List.mem_flatMap]
  simp only [List.mem_range]

/-- A block of a directory is at one of the direct pointers. -/
theorem mem_blockList (hb : b ∈ blockList img d) :
    ∃ k < 12, b ∈ pointedBlocks img (k - 11) (iBlock img d k) := by
  obtain ⟨k, hk, heq⟩ := List.mem_map.1 ((List.takeWhile_sublist _).subset hb)
  have hk := List.mem_range.1 hk
  have hne : b ≠ 0 := by simpa using List.mem_takeWhile_imp hb
  refine ⟨k, hk, ?_⟩
  rw [show k - 11 = 0 by omega, pointedBlocks, heq, if_neg hne]
  exact List.mem_singleton_self b

theorem Sound.slow (h : Sound img) (hd : (space img).Reach d) : ¬ IsFastLink img d := by
  intro hfast
  have hdir : modeType (iMode img d) = ext2SIfdir := h.isDir hd
  rw [hfast.1] at hdir
  exact absurd hdir (by decide)

theorem Sound.needed (h : Sound img) (hd : (space img).Reach d) : Needed img d := by
  obtain ⟨h₁, h₂⟩ := h.range hd
  refine ⟨h₁, h₂, ?_⟩
  rcases hd.cases_named with heq | ⟨q, hq, heq⟩
  · refine .inl ?_
    rw [heq]
    exact show ext2RootIno ≤ 11 by decide
  · exact .inr fun hno => hno q hq heq

/-- A block of a directory is not one that is reached through blocks of pointers. -/
theorem Bookkept.direct (hk : Bookkept img) (h : Sound img) (hd : (space img).Reach d)
    (hb : b ∈ blockList img d) (hn : Needed img n) (hslow : ¬ IsFastLink img n) (hk₁ : 12 ≤ k)
    (hk₂ : k < 15) : b ∉ pointedBlocks img (k - 11) (iBlock img n k) := by
  intro hmem
  obtain ⟨j, hj, hbj⟩ := mem_blockList hb
  have hslow' := h.slow hd
  obtain rfl : d = n := hk.apart d n (h.needed hd) hn b
    ((mem_inodeBlocks hslow').2 ⟨j, by omega, hbj⟩) ((mem_inodeBlocks hslow).2 ⟨k, hk₂, hmem⟩)
  have hnodup := hk.once d hn
  rw [inodeBlocks, if_neg hslow, List.nodup_flatMap] at hnodup
  have hjk := List.pairwise_iff_getElem.1 hnodup.2 j k (by simp; omega) (by simpa using hk₂)
    (by omega)
  simp only [List.getElem_range] at hjk
  exact hjk hbj hmem

/-! ## Steps that allocate nothing -/

theorem clearBits_congr {x' count : ℕ} (h : ∀ k < count, bit img' x' k = bit img x k) :
    clearBits img' x' count = clearBits img x count := by
  rw [clearBits, clearBits, List.filter_congr fun k hk => ?_]
  rw [h k (List.mem_range.1 hk)]

/-- What a step that keeps the books does: it writes to a block of a directory, and to the first
fields of an inode that is no directory. The same inodes have names. -/
structure NoAlloc (img img' : Image) (d b r : ℕ) : Prop where
  site : Site img d b r
  frame : Frame (blockBytes b ∪ inodeField img r 0 28) img img'
  fast : IsFastLink img' r ↔ IsFastLink img r
  unnamed : ∀ m, Unnamed img' m ↔ Unnamed img m

namespace NoAlloc

variable (h : NoAlloc img img' d b r)
include h

theorem shape : SameShape img img' := by
  refine h.site.shape (h.frame.mono ?_)
  have hfield : inodeField img r 0 28 ⊆ inodeField img r 0 128 :=
    inodeField_mono le_rfl (by decide)
  rintro i (hi | hi)
  · exact .inl (.inl (.inl hi))
  · exact .inl (.inl (.inr (.inl (hfield hi))))

/-- The superblock and the group descriptor. -/
theorem load_low (hlow : k + n ≤ 3072) : load img' k n = load img k n := by
  have hsize : ext2BlockSize = 1024 := rfl
  have hthree := h.site.data.three_le
  have htable := h.site.sound.geometry.table
  have hone := h.site.one_le
  refine h.frame.load_eq fun i hi hlt => ?_
  simp only [blockBytes, inodeField, inodeAddr_def, Set.mem_union, Set.mem_Ico, hsize]
  omega

/-- A bitmap. -/
theorem bit_eq (hb : x ≠ b) (hx : x < bgInodeTable img ∨ tableEnd img ≤ x * ext2BlockSize)
    (hk : k < 8192) : bit img' x k = bit img x k := by
  refine Ext2.bit_eq h.frame (Set.disjoint_union_right.2 ⟨disjoint_blockBytes hb, ?_⟩) hk
  exact (disjoint_inodeField_blockBytes h.site.one_le h.site.le (by decide) hx).symm

theorem blockBit (hk : k < 8192) :
    bit img' (bgBlockBitmap img') k = bit img (bgBlockBitmap img) k := by
  rw [h.shape.blockBitmap]
  exact h.bit_eq h.site.data.blockBitmap.symm h.site.sound.geometry.blockBitmap_table hk

theorem inodeBit (hk : k < 8192) :
    bit img' (bgInodeBitmap img') k = bit img (bgInodeBitmap img) k := by
  rw [h.shape.inodeBitmap]
  exact h.bit_eq h.site.data.inodeBitmap.symm h.site.sound.geometry.inodeBitmap_table hk

theorem needed : Needed img' n ↔ Needed img n := by
  rw [Needed, Needed, h.shape.inodes, h.unnamed]

/-- The fields from the count of blocks on, and those of other inodes. -/
theorem load_field {off len : ℕ} (h₁ : 1 ≤ n) (h₂ : n ≤ sInodesCount img) (hlen : off + len ≤ 128)
    (hoff : n ≠ r ∨ 28 ≤ off) :
    load img' (inodeAddr img' n + off) len = load img (inodeAddr img n + off) len := by
  refine load_inodeField h.frame h.shape (Set.disjoint_union_right.2 ⟨?_, ?_⟩)
  · exact disjoint_inodeField_blockBytes h₁ h₂ hlen h.site.data.table
  · exact disjoint_inodeField h₁ h.site.one_le hlen (by decide) (by omega)

theorem isData_iff : IsData img' x ↔ IsData img x :=
  ⟨h.shape.symm.isData, h.shape.isData⟩

theorem fast_iff (hn : Needed img n) : IsFastLink img' n ↔ IsFastLink img n := by
  by_cases hnr : n = r
  · rw [hnr]
    exact h.fast
  · obtain ⟨h₁, h₂, -⟩ := hn
    have hmode : load img' (inodeAddr img' n + 0) 2 = load img (inodeAddr img n + 0) 2 :=
      h.load_field h₁ h₂ (by decide) (.inl hnr)
    have hmode : iMode img' n = iMode img n := hmode
    have hblocks : load img' (inodeAddr img' n + 28) 4 = load img (inodeAddr img n + 28) 4 :=
      h.load_field h₁ h₂ (by decide) (.inl hnr)
    have hblocks : iBlocks img' n = iBlocks img n := hblocks
    rw [IsFastLink, IsFastLink, hmode, hblocks]

theorem iBlock_eq (hn : Needed img n) (hk : k < 15) : iBlock img' n k = iBlock img n k := by
  obtain ⟨h₁, h₂, -⟩ := hn
  have hload : load img' (inodeAddr img' n + (40 + 4 * k)) 4 =
      load img (inodeAddr img n + (40 + 4 * k)) 4 :=
    h.load_field h₁ h₂ (by omega) (.inr (by omega))
  rw [← Nat.add_assoc, ← Nat.add_assoc] at hload
  exact hload

variable (hk : Bookkept img)
include hk

/-- The blocks of pointers are as they were. -/
theorem inodeBlocks_eq (hn : Needed img n) : inodeBlocks img' n = inodeBlocks img n := by
  have hfast := h.fast_iff hn
  by_cases hslow : IsFastLink img n
  · rw [inodeBlocks, inodeBlocks, if_pos hslow, if_pos (hfast.2 hslow)]
  rw [inodeBlocks, inodeBlocks, if_neg hslow, if_neg fun hf => hslow (hfast.1 hf)]
  refine List.flatMap_congr fun k hk₂ => ?_
  have hk₂ := List.mem_range.1 hk₂
  rw [h.iBlock_eq hn hk₂]
  by_cases hk₁ : k < 12
  · rw [show k - 11 = 0 by omega]
    rfl
  · refine pointedBlocks_congr fun x hx => ?_
    have hdata := hk.data n hn x ((mem_inodeBlocks hslow).2 ⟨k, hk₂, hx⟩)
    refine agree_blockBytes h.frame (Set.disjoint_union_right.2 ⟨disjoint_blockBytes ?_, ?_⟩)
    · rintro rfl
      exact hk.direct h.site.sound h.site.dir h.site.block hn hslow (by omega) hk₂ hx
    · exact (disjoint_inodeField_blockBytes h.site.one_le h.site.le (by decide) hdata.table).symm

theorem bookkept : Bookkept img' := by
  have hshape := h.shape
  have hg := h.site.sound.geometry
  have hdata : ∀ {n}, Needed img n → inodeBlocks img' n = inodeBlocks img n := h.inodeBlocks_eq hk
  have hblocks := hg.blocks
  have hinodes := hg.inodes
  refine ⟨fun n h₁ h₂ => ?_, fun b h₁ h₂ => ?_, fun n hn b hb => ?_, fun n hn => ?_,
    fun n m hn hm b hb hb' => ?_, ?_⟩
  · rw [hshape.inodes] at h₂
    rw [h.inodeBit (by omega), h.needed]
    exact hk.inodes n h₁ h₂
  · rw [hshape.blocks] at h₂
    have hmarked : marked img' b = marked img b := h.blockBit (by omega)
    rw [hmarked, hk.blocks b h₁ h₂, h.isData_iff]
    refine or_congr_right (exists_congr fun n => ?_)
    rw [h.needed]
    exact and_congr_right fun hn => by rw [hdata hn]
  · rw [h.needed] at hn
    rw [hdata hn] at hb
    exact hshape.isData (hk.data n hn b hb)
  · rw [h.needed] at hn
    rw [hdata hn]
    exact hk.once n hn
  · rw [h.needed] at hn hm
    rw [hdata hn] at hb
    rw [hdata hm] at hb'
    exact hk.apart n m hn hm b hb hb'
  · rw [hshape.blocks, hshape.inodes, clearBits_congr fun k hk => h.blockBit (by omega),
      clearBits_congr fun k hk => h.inodeBit (by omega)]
    exact ⟨(h.load_low (by decide)).trans hk.free.superBlocks,
      (h.load_low (by decide)).trans hk.free.superInodes,
      (h.load_low (by decide)).trans hk.free.groupBlocks,
      (h.load_low (by decide)).trans hk.free.groupInodes⟩

end NoAlloc

/-! ## The names -/

/-- An edit that gives and takes names of inodes that have others. -/
theorem Edited.unnamed (h : Edited img img' d b n gone come) (hfile : ¬ (space img').isDir n)
    (hcome : ∀ q ∈ come, deInode img' q = n ∧ ¬ Unnamed img n)
    (hgone : ∀ q ∈ gone, ∃ q' ∈ (space img).entries, q' ∉ gone ∧ deInode img q' = deInode img q)
    (m : ℕ) : Unnamed img' m ↔ Unnamed img m := by
  have hfiles := Edited.come_file hfile fun q hq => (hcome q hq).1
  constructor
  · intro hno q hq heq
    obtain ⟨q', hq', hkept, heq'⟩ :
        ∃ q' ∈ (space img).entries, q' ∉ gone ∧ deInode img q' = deInode img q := by
      by_cases hqg : q ∈ gone
      · exact hgone q hqg
      · exact ⟨q, hq, hqg, rfl⟩
    have hmem : q' ∈ (space img').entries := by
      rw [h.changes.entries hfiles]
      exact .inl ⟨hq', hkept⟩
    have hsame : deInode img' q' = deInode img q' := h.changes.target q' hq' hkept
    exact hno q' hmem (hsame.trans (heq'.trans heq))
  · intro hno q hq heq
    rcases h.changes.mem_entries hfiles hq with ⟨hq, -, hsame⟩ | hq
    · have hsame : deInode img' q = deInode img q := hsame
      exact hno q hq (hsame.symm.trans heq)
    · obtain ⟨hn, hnamed⟩ := hcome q hq
      refine hnamed ?_
      rw [← hn, heq]
      exact hno

/-- What a path leads to, if it is no directory, has a name. -/
theorem Sound.named_of_traverse (h : Sound img) (hinit : init img = some t) {cs : List Name}
    {c : Name} (hr : traversePath t img cs c = some r) (hne : r ≠ 0)
    (hfile : ¬ (space img).isDir r) : ¬ Unnamed img r := by
  unfold traversePath at hr
  split at hr
  · cases hr
  · rcases h.traverse hinit hr hne with rfl | ⟨q, hq, heq⟩
    · exact absurd h.root hfile
    · exact fun hno => hno q hq heq

/-! ## `ext2_ln` -/

/-- `ext2_ln` without `-s` is given a file, but no symbolic link that keeps its target in the inode;
with `-s`, no inode is free. -/
def LnKeepsBooks (sflag : Bool) (path₁ path₂ : Name) (img : Image) : Prop :=
  ∀ t d r name, lnChecks path₁ path₂ img = some (.ok (t, d, r, name)) →
    if sflag then freeInode img = 0 else ¬ (space img).isDir r ∧ ¬ IsFastLink img r

/-- `allocate` makes a regular file of the inode that is linked. -/
theorem slow_of_file (hmode : iMode img n = ext2SIfreg) : ¬ IsFastLink img n := by
  intro hfast
  have hlink := hfast.1
  rw [hmode] at hlink
  exact absurd hlink (by decide)

theorem noAlloc_ln (h : Sound img) (hinit : init img = some t) (hd : d ≠ 0)
    (hname : name.length < 255) (hr₁ : 1 ≤ r) (hr₂ : r ≤ sInodesCount img)
    (hfile : ¬ (space img).isDir r) (hnamed : ¬ Unnamed img r) (hslow : ¬ IsFastLink img r)
    (hadd : addHardLink t img d r name = some img') :
    ∃ d b, Sound img' ∧ NoAlloc img img' d b r := by
  rcases addHardLink_cases h hinit hd hname hr₁ hr₂ hfile hadd with
    ⟨-, rfl, b, hs⟩ | ⟨-, b, new, hadded, hframe⟩
  · -- no room: the count alone is changed
    have hlink := (Stage.refl img b r d).linkFile hs
    have hfile' : ¬ (space (linkFile img r)).isDir r := by
      show ¬ modeType (iMode (linkFile img r) r) = ext2SIfdir
      rw [hlink.mode]
      decide
    have hedit : Edited img (linkFile img r) d b r ∅ ∅ :=
      hlink.stage.unchanged hs hlink.block fun _ _ _ => hfile'
    refine ⟨d, b, hedit.sound hfile' fun _ hq => absurd hq (Set.notMem_empty _), hs,
      hlink.frame.mono Set.subset_union_right,
      iff_of_false (slow_of_file hlink.mode) hslow, hedit.unnamed hfile' ?_ ?_⟩
    · exact fun _ hq => absurd hq (Set.notMem_empty _)
    · exact fun _ hq => absurd hq (Set.notMem_empty _)
  · refine ⟨d, b, hadded.sound, hadded.site, hframe,
      iff_of_false (slow_of_file hadded.mode) hslow, hadded.edited.unnamed hadded.file ?_ ?_⟩
    · exact fun q hq => ⟨hadded.names q hq, hnamed⟩
    · exact fun _ hq => absurd hq (Set.notMem_empty _)

/-- `allocate` is given inode 0. -/
theorem addSymlink_none (hfree : freeInode img = 0) : addSymlink t img d name path = none := by
  unfold addSymlink
  dsimp only
  split
  · rfl
  · rw [show (findFreeInode img).1 = 0 from hfree]
    exact if_pos rfl

/-! ## `ext2_rm` -/

/-- The entry of a file that `ext2_rm` finds by its name is in use, is not the first of its block,
and another entry names its inode. The inode that it finds by the path is no directory, and
`remove_link` finds no bit to clear. -/
def RmKeepsBooks (env : Env) (path : Name) (img : Image) : Prop :=
  ∀ t r pre q, rmChecks path img = some (.ok (t, r)) →
    findNamed t img (basename path) = some (pre, q) → IsFileEntry img q →
    isLive img q = true ∧ pre ≠ q ∧
      (∃ q' ∈ (space img).entries, q' ≠ q ∧ deInode img q' = deInode img q) ∧
      ¬ (space img).isDir r ∧ (iLinksCount img r = 1 → foundBit env t img r = none)

/-- `remove_link` clears no bit. -/
theorem removeLink_time (hg : Geometry img) (huse : inUse img n = true)
    (hno : iLinksCount img n = 1 → foundBit env t img n = none) :
    removeLink env t img n = setIDtime (decrement img n) n env.now := by
  rcases Nat.lt_trichotomy (iLinksCount img n) 1 with hlt | hlast | hmore
  · rw [removeLink, if_neg (by omega), decrement, if_neg (by omega)]
  · rw [removeLink_last hg huse hlast, hno hlast]
  · exact removeLink_more hg huse hmore

theorem removeLink_time_frame (env : Env) (t : Tables) (hg : Geometry img)
    (huse : inUse img n = true) (hno : iLinksCount img n = 1 → foundBit env t img n = none) :
    Frame (inodeField img n 20 8) img (removeLink env t img n) := by
  obtain ⟨h₁, h₂, -⟩ := inUse_iff.1 huse
  rw [removeLink_time hg huse hno]
  exact frame_storeInode subset_rfl (decrement_frame img n) (decrement_shape hg h₁ h₂) (by decide)
    (by decide)

/-- A write to a block of a directory. -/
theorem foundBit_congr (env : Env) (t : Tables) (n : ℕ) (hg : Geometry img) (hb : IsData img b)
    (hframe : Frame (blockBytes b) img img') :
    inUse img' n = inUse img n ∧ foundBit env t img' n = foundBit env t img n := by
  have hs : SameShape img img' := .of_frame hframe (disjoint_blockBytes_header hb.three_le)
  have hinodes := hg.inodes
  have hbit : ∀ k < 8192, bit img' (bgInodeBitmap img) k = bit img (bgInodeBitmap img) k :=
    fun k hk => bit_eq hframe (disjoint_blockBytes hb.inodeBitmap.symm) hk
  constructor
  · rw [Bool.eq_iff_iff, inUse_iff, inUse_iff, hs.inodes, hs.inodeBitmap]
    refine and_congr_right fun h₁ => and_congr_right fun h₂ => ?_
    rw [hbit (n - 1) (by omega)]
  · rw [foundBit, foundBit, hs.inodes, hs.inodeBitmap]
    refine List.find?_congr fun i hi => ?_
    have hi := List.mem_range.1 hi
    rw [hbit i (by omega)]

theorem fast_iff_of_frame (hb : IsData img b) (hr₁ : 1 ≤ r) (hr₂ : r ≤ sInodesCount img)
    (hs : SameShape img img') (hframe : Frame (blockBytes b ∪ inodeField img r 20 8) img img') :
    IsFastLink img' r ↔ IsFastLink img r := by
  have hfield : ∀ {off len}, off + len ≤ 20 ∨ 28 ≤ off → off + len ≤ 128 →
      load img' (inodeAddr img' r + off) len = load img (inodeAddr img r + off) len :=
    fun hoff hlen => load_inodeField hframe hs (Set.disjoint_union_right.2
      ⟨disjoint_inodeField_blockBytes hr₁ hr₂ hlen hb.table,
        disjoint_inodeField hr₁ hr₁ hlen (by decide) (.inr hoff)⟩)
  have hmode : iMode img' r = iMode img r :=
    show load img' (inodeAddr img' r + 0) 2 = load img (inodeAddr img r + 0) 2 from
      hfield (.inl (by decide)) (by decide)
  have hblocks : iBlocks img' r = iBlocks img r := hfield (.inr (by decide)) (by decide)
  rw [IsFastLink, IsFastLink, hmode, hblocks]

theorem noAlloc_rm (env : Env) (h : Sound img) (hk : Bookkept img) (hinit : init img = some t)
    (hr₁ : 1 ≤ r) (hr₂ : r ≤ sInodesCount img) (hnamed : ¬ Unnamed img r)
    (hfound : findNamed t img name = some (p, q)) (hfile : IsFileEntry img q)
    (hlive : isLive img q = true) (hpre : p ≠ q)
    (hother : ∃ q' ∈ (space img).entries, q' ≠ q ∧ deInode img q' = deInode img q)
    (hdir : ¬ (space img).isDir r) (hno : iLinksCount img r = 1 → foundBit env t img r = none) :
    ∃ d b, Sound (removeLink env t (unlinkEntry img (some p) q) r) ∧
      NoAlloc img (removeLink env t (unlinkEntry img (some p) q) r) d b r := by
  obtain ⟨d, b, hframe, hunlink, hmode, hedit⟩ :=
    unlink_edited env h hinit hr₁ hr₂ hdir hfound hlive hfile hpre
  have hs := hedit.site
  have hg := h.geometry
  -- `remove_link` finds what it would have found before
  have hshape : SameShape img (unlinkEntry img (some p) q) :=
    .of_frame hframe (disjoint_blockBytes_header hs.data.three_le)
  obtain ⟨huse, hbit⟩ := foundBit_congr env t r hg hs.data hframe
  have hlinks : iLinksCount (unlinkEntry img (some p) q) r = iLinksCount img r :=
    iLinksCount_eq hframe hshape (disjoint_inodeField_blockBytes hr₁ hr₂ (by decide) hs.data.table)
  have hused : inUse img r = true :=
    inUse_iff.2 ⟨hr₁, hr₂, (hk.inodes r hr₁ hr₂).2 ⟨hr₁, hr₂, .inr hnamed⟩⟩
  have htime := removeLink_time_frame env t (hshape.geometry hg) (huse.trans hused)
    (by rw [hlinks, hbit]; exact hno)
  rw [hshape.inodeField_eq] at htime
  have hfields : Frame (blockBytes b ∪ inodeField img r 20 8) img
      (removeLink env t (unlinkEntry img (some p) q) r) :=
    (hframe.mono Set.subset_union_left).trans (htime.mono Set.subset_union_right)
  refine ⟨d, b, hedit.sound hmode fun _ hq => absurd hq (Set.notMem_empty _), hs,
    hfields.mono ?_, ?_, hedit.unnamed hmode ?_ ?_⟩
  · exact Set.union_subset_union_right _ (inodeField_mono (by decide) (by decide))
  · exact fast_iff_of_frame hs.data hr₁ hr₂ hunlink.shape hfields
  · exact fun _ hq => absurd hq (Set.notMem_empty _)
  · rintro _ rfl
    exact hother

/-! ## Runs -/

/-- The checks refuse the run, or it finds no inode for a new file, or it changes names of inodes
that keep one. -/
def Command.KeepsBooks (env : Env) : Command → Image → Prop
  | .mkdir path => fun img => ∀ found, mkdirChecks path img = some (.ok found) → freeInode img = 0
  | .cp file path₁ path₂ => fun img =>
    ∀ found, cpChecks file path₁ path₂ img = some (.ok found) → freeInode img = 0
  | .ln sflag path₁ path₂ => LnKeepsBooks sflag path₁ path₂
  | .rm path => RmKeepsBooks env path
  | .rmBonus path => fun img => RmKeepsBooks env path img ∧ FindsNoDir path img

theorem books_mkdir (h : Sound img)
    (hc : ∀ found, mkdirChecks path img = some (.ok found) → freeInode img = 0) {o : Outcome}
    (hrun : mkdir path img = some o) : o.img = img := by
  rcases mkdir_cases hrun with heq | ⟨t, d, name, hchecks, hadd⟩
  · exact heq
  have hfree := hc _ hchecks
  obtain ⟨hinit, hd, hname⟩ := mkdirChecks_ok hchecks
  rcases addDir_cases h hinit hd hname (unnamed_of_free fun hne => absurd hfree hne) hadd with
    ⟨-, heq, -⟩ | ⟨-, b, new, hadded⟩
  · rw [heq, findFreeInode_zero hfree]
  · have hone : 1 ≤ freeInode img := hadded.site.one_le
    omega

theorem books_cp {file : Option (List UInt8)} (h : Sound img)
    (hc : ∀ found, cpChecks file path₁ path₂ img = some (.ok found) → freeInode img = 0)
    {o : Outcome} (hrun : cp env file path₁ path₂ img = some o) : o.img = img := by
  rcases cp_cases hrun with heq | ⟨t, d, name, data, hchecks, hadd⟩
  · exact heq
  have hfree := hc _ hchecks
  obtain ⟨hinit, hd, hname⟩ := cpChecks_ok hchecks
  rcases addFile_cases h hinit hd hname (unnamed_of_free fun hne => absurd hfree hne)
      (fun hne => absurd hfree hne) hadd with ⟨-, heq, -⟩ | ⟨-, b, new, hadded⟩
  · rw [heq, findFreeInode_zero hfree]
  · have hone : 1 ≤ freeInode img := hadded.site.one_le
    omega

theorem books_ln {sflag : Bool} (h : Sound img) (hk : Bookkept img)
    (hc : LnKeepsBooks sflag path₁ path₂ img) {o : Outcome}
    (hrun : ln sflag path₁ path₂ img = some o) : Sound o.img ∧ Bookkept o.img := by
  rcases ln_cases hrun with heq | ⟨t, d, r, name, hchecks, hadd⟩
  · rw [heq]
    exact ⟨h, hk⟩
  obtain ⟨hinit, hd, hname, hr, c, htraverse⟩ := lnChecks_ok hchecks
  have hc := hc t d r name hchecks
  cases sflag with
  | true =>
    rw [if_pos rfl] at hadd hc
    rw [addSymlink_none hc] at hadd
    cases hadd
  | false =>
    rw [if_neg Bool.false_ne_true] at hadd hc
    obtain ⟨d', b, hsound, hkept⟩ := noAlloc_ln h hinit hd hname (Nat.one_le_iff_ne_zero.2 hr)
      (h.traversePath_le hinit htraverse hr) hc.1 (h.named_of_traverse hinit htraverse hr hc.1)
      hc.2 hadd
    exact ⟨hsound, hkept.bookkept hk⟩

/-- What `ext2_rm` and `ext2_rm_bonus` do to a file. -/
theorem books_remove (h : Sound img) (hk : Bookkept img) (hc : RmKeepsBooks env path img)
    {o : Outcome} (hcases : o.img = img ∨ ∃ t r pre q, rmChecks path img = some (.ok (t, r)) ∧
      findNamed t img (basename path) = some (pre, q) ∧ IsFileEntry img q ∧
      o.img = removeLink env t (unlinkEntry img (some pre) q) r) :
    Sound o.img ∧ Bookkept o.img := by
  rcases hcases with heq | ⟨t, r, pre, q, hchecks, hfound, hfile, heq⟩
  · rw [heq]
    exact ⟨h, hk⟩
  · obtain ⟨hlive, hpre, hother, hdir, hno⟩ := hc t r pre q hchecks hfound hfile
    obtain ⟨hinit, -, -, -, htraverse, hr⟩ := rmChecks_ok.1 hchecks
    obtain ⟨d, b, hsound, hkept⟩ := noAlloc_rm env h hk hinit (Nat.one_le_iff_ne_zero.2 hr)
      (h.traversePath_le hinit htraverse hr) (h.named_of_traverse hinit htraverse hr hdir) hfound
      hfile hlive hpre hother hdir hno
    rw [heq]
    exact ⟨hsound, hkept.bookkept hk⟩

/-- Sound images with consistent bitmaps. -/
structure Allocated (img : Image) : Prop where
  sound : Sound img
  books : Bookkept img

theorem Allocated.step {c : Env × Command} (h : Allocated img) (hc : c.2.KeepsBooks c.1 img)
    (hstep : ToolStep img c img') : Allocated img' := by
  obtain ⟨env, c⟩ := c
  obtain ⟨o, hrun, rfl⟩ := hstep
  have hboth : Sound o.img ∧ Bookkept o.img := by
    cases c with
    | mkdir path =>
      rw [books_mkdir h.sound hc hrun]
      exact ⟨h.sound, h.books⟩
    | cp file path₁ path₂ =>
      rw [books_cp h.sound hc hrun]
      exact ⟨h.sound, h.books⟩
    | ln sflag path₁ path₂ => exact books_ln h.sound h.books hc hrun
    | rm path => exact books_remove h.sound h.books hc (h.sound.rm_cases hrun)
    | rmBonus path => exact books_remove h.sound h.books hc.1 (h.sound.rmBonus_cases hrun hc.2)
  exact ⟨hboth.1, hboth.2⟩

/-- **Bitmaps and free counts over runs.** If they are consistent at first, and each step of a run
meets the condition, they are consistent in the end. -/
theorem bookkept_run {s : List (Lts.Transition Image (Env × Command))} (h : Sound img)
    (hk : Bookkept img) (hrun : Lts.Run ToolStep img s img')
    (hc : ∀ t ∈ s, t.event.2.KeepsBooks t.event.1 t.before) : Bookkept img' :=
  (hrun.invariant_while (I := Allocated) (C := fun img c => c.2.KeepsBooks c.1 img) ⟨h, hk⟩
    (fun _ _ _ hI hC hstep => hI.step hC hstep) hc).books

/-! ## The example -/

theorem exImage_needed : Needed exImage n ↔ 1 ≤ n ∧ n ≤ 15 := by
  have hcount : sInodesCount exImage = 32 := by decide +kernel
  have hnames : ∀ n < 16, 11 < n → ∃ q ∈ exEntries, deInode exImage q = n := by decide +kernel
  have htargets : ∀ q ∈ exEntries, deInode exImage q ≤ 15 := by decide +kernel
  rw [Needed, hcount]
  constructor
  · rintro ⟨h₁, -, hle | hnamed⟩
    · exact ⟨h₁, by omega⟩
    · refine ⟨h₁, not_lt.1 fun hlt => hnamed fun q hq heq => ?_⟩
      have hle := htargets q (exImage_entries.1 hq)
      omega
  · rintro ⟨h₁, hle⟩
    refine ⟨h₁, by omega, or_iff_not_imp_left.2 fun hlt hno => ?_⟩
    obtain ⟨q, hq, heq⟩ := hnames n (by omega) (by omega)
    exact hno q (exImage_entries.2 hq) heq

theorem exImage_inodeBlocks : ∀ n < 16, inodeBlocks exImage n =
    if n = 2 then [9] else if n = 12 then [10] else if n = 13 then [11] else [] := by
  decide +kernel

theorem exImage_isData (hb : b < 128) : IsData exImage b ↔ 9 ≤ b := by
  have hplaces : bgBlockBitmap exImage = 3 ∧ bgInodeBitmap exImage = 4 ∧
      bgInodeTable exImage = 5 ∧ tableEnd exImage = 9 * ext2BlockSize := by decide +kernel
  obtain ⟨h₁, h₂, h₃, h₄⟩ := hplaces
  have hsize : ext2BlockSize = 1024 := rfl
  rw [hsize] at h₄
  constructor
  · intro h
    have hthree := h.three_le
    have hblock := h.blockBitmap
    have hinode := h.inodeBitmap
    have htable := h.table
    rw [hsize] at htable
    omega
  · intro h
    have himage : imageSize = 128 * 1024 := rfl
    exact ⟨by rw [InImage, hsize, himage]; omega, by omega, by omega, by omega,
      by rw [hsize]; omega⟩

theorem exImage_bookkept : Bookkept exImage := by
  have hcount : sInodesCount exImage = 32 ∧ sBlocksCount exImage = 128 := by decide +kernel
  have hbits : ∀ n < 33, 1 ≤ n → (bit exImage (bgInodeBitmap exImage) (n - 1) = true ↔
      n ≤ 15) := by decide +kernel
  have hmarks : ∀ b < 128, 1 ≤ b → (marked exImage b = true ↔ b ≤ 11) := by decide +kernel
  have hlist : ∀ {n}, Needed exImage n → inodeBlocks exImage n =
      if n = 2 then [9] else if n = 12 then [10] else if n = 13 then [11] else [] :=
    fun hn => exImage_inodeBlocks _ (Nat.lt_succ_of_le (exImage_needed.1 hn).2)
  have hmem : ∀ {n b}, Needed exImage n → (b ∈ inodeBlocks exImage n ↔
      n = 2 ∧ b = 9 ∨ n = 12 ∧ b = 10 ∨ n = 13 ∧ b = 11) := by
    intro n b hn
    rw [hlist hn]
    split_ifs with h₂ h₁₂ h₁₃
    · simp [h₂]
    · simp [h₁₂]
    · simp [h₁₃]
    · simp [h₂, h₁₂, h₁₃]
  refine ⟨fun n h₁ h₂ => ?_, fun b h₁ h₂ => ?_, fun n hn b hb => ?_, fun n hn => ?_,
    fun n m hn hm b hb hb' => ?_, ⟨by decide +kernel, by decide +kernel, by decide +kernel,
      by decide +kernel⟩⟩
  · rw [exImage_needed, hbits n (by omega) h₁]
    omega
  · rw [hmarks b (by omega) h₁, exImage_isData (by omega)]
    constructor
    · intro hle
      by_cases hdata : 9 ≤ b
      · obtain ⟨n, hn, hplace⟩ : ∃ n, (1 ≤ n ∧ n ≤ 15) ∧
            (n = 2 ∧ b = 9 ∨ n = 12 ∧ b = 10 ∨ n = 13 ∧ b = 11) := by
          obtain rfl | rfl | rfl : b = 9 ∨ b = 10 ∨ b = 11 := by omega
          · exact ⟨2, by decide⟩
          · exact ⟨12, by decide⟩
          · exact ⟨13, by decide⟩
        exact .inr ⟨n, exImage_needed.2 hn, (hmem (exImage_needed.2 hn)).2 hplace⟩
      · exact .inl hdata
    · rintro (hlt | ⟨n, hn, hb⟩)
      · omega
      · have hb := (hmem hn).1 hb
        omega
  · have hb := (hmem hn).1 hb
    exact (exImage_isData (by omega)).2 (by omega)
  · rw [hlist hn]
    split_ifs
    all_goals simp
  · have hb := (hmem hn).1 hb
    have hb' := (hmem hm).1 hb'
    omega

theorem exImage_lnKeepsBooks : LnKeepsBooks false [47, 102] [47, 103] exImage := by
  intro t d r name hchecks
  rw [exImage_lnChecks] at hchecks
  cases hchecks
  exact ⟨show ¬ modeType (iMode exImage 15) = ext2SIfdir by decide +kernel, by decide +kernel⟩

theorem exLinked_rmKeepsBooks : RmKeepsBooks exEnv [47, 102] exLinked := by
  intro t r pre q hchecks hfound _
  rw [exLinked_rmChecks] at hchecks
  cases hchecks
  cases exLinked_findNamed.symm.trans hfound
  -- the new name `/g`, in the block of the root
  have hother : 9264 ∈ (space exLinked).entries :=
    ⟨2, .root, show 9264 ∈ dirEntries exLinked 2 ∧ isLive exLinked 9264 = true by decide +kernel⟩
  exact ⟨by decide +kernel, by decide, ⟨9264, hother, by decide, by decide +kernel⟩,
    show ¬ modeType (iMode exLinked 15) = ext2SIfdir by decide +kernel,
    fun hlast => absurd hlast (by decide +kernel)⟩

/-- `ln /f /g`, then `rm /f` -/
theorem bookkept_run_move : Bookkept exMoved ∧
    findNamed exTables exMoved [102] = none ∧ inUse exMoved 15 = true :=
  ⟨bookkept_run exImage_sound exImage_bookkept exMove_run
    (List.forall_mem_cons.2 ⟨exLinked_rmKeepsBooks,
      List.forall_mem_singleton.2 exImage_lnKeepsBooks⟩),
    by decide +kernel, by decide +kernel⟩

/-- `rm /f`, the last name of inode 15: the bit of inode 5 is cleared, which is reserved. -/
theorem rm_not_bookkept : Sound exImage ∧ Bookkept exImage ∧
    ∃ o, rm exEnv [47, 102] exImage = some o ∧ o.code = 0 ∧ ¬ Bookkept o.img := by
  have hsome : (rm exEnv [47, 102] exImage).map (fun o =>
      (o.code, sInodesCount o.img, bit o.img (bgInodeBitmap o.img) 4)) = some (0, 32, false) := by
    decide +kernel
  obtain ⟨o, ho, heq⟩ := Option.map_eq_some_iff.1 hsome
  simp only [Prod.mk.injEq] at heq
  obtain ⟨hcode, hcount, hbit⟩ := heq
  refine ⟨exImage_sound, exImage_bookkept, o, ho, hcode, fun h => ?_⟩
  have hmarked : bit o.img (bgInodeBitmap o.img) 4 = true :=
    (h.inodes 5 (by decide) (by omega)).2 ⟨by decide, by omega, .inl (by decide)⟩
  rw [hbit] at hmarked
  cases hmarked

end Cscc69.Ext2
