import Cscc69.Ext2.Tree

/-!
# Edits of one directory block

A tool that adds or removes a name edits one block `b` of a directory `d`. Besides it writes to one
inode `n`, which is no directory yet, to the link count of `d`, to the bitmaps and the free counts,
and to blocks that nobody uses (`toolBytes`). Everything else about the directories is then as it
was (`Site.block`, `Site.inode`).

`Edited` adds what has happened to the entries of the block: those in `gone` have been taken out and
those in `come` put in. It is a change of the name space (`Edited.changes`), and when `n` is a file
afterwards the image is sound still (`Edited.sound`).
-/

namespace Cscc69.Ext2

open Bytes Records Naming

variable {img img' : Image} {n m b d k x q off len : ℕ} {gone come : Set ℕ}

/-! ## The bytes -/

/-- A block that is not in use, or block 0, which `find_free_block` returns if there is none. -/
def Spare (img : Image) (x : ℕ) : Prop :=
  x = 0 ∨ 1 ≤ x ∧ x ≤ sBlocksCount img ∧ marked img x = false

def toolBytes (img : Image) (b n d : ℕ) : Set ℕ :=
  blockBytes b ∪ (inodeField img n 0 128 ∪ inodeField img d 26 2) ∪
    (blockBytes (bgInodeBitmap img) ∪ blockBytes (bgBlockBitmap img) ∪ freeCounts) ∪
    {a | ∃ x, Spare img x ∧ a ∈ blockBytes x}

/-- Block `b` is one of directory `d`, and inode `n` is no directory that is reached. -/
structure Site (img : Image) (d b n : ℕ) : Prop where
  sound : Sound img
  dir : (space img).Reach d
  block : b ∈ blockList img d
  one_le : 1 ≤ n
  le : n ≤ sInodesCount img
  file : ¬ (space img).Reach n

theorem Sound.spare (h : Sound img) (hx : Spare img x) : x = 0 ∨ IsData img x := by
  rcases hx with rfl | ⟨h₁, h₂, hfree⟩
  · exact .inl rfl
  · refine .inr (Classical.byContradiction fun hno => ?_)
    rw [h.reserved x h₁ h₂ hno] at hfree
    cases hfree

/-- A set that is apart from all of the regions is apart from `toolBytes`. -/
theorem disjoint_toolBytes {P : Set ℕ} (hb : Disjoint P (blockBytes b))
    (hn : Disjoint P (inodeField img n 0 128)) (hd : Disjoint P (inodeField img d 26 2))
    (hi : Disjoint P (blockBytes (bgInodeBitmap img)))
    (hk : Disjoint P (blockBytes (bgBlockBitmap img))) (hc : Disjoint P freeCounts)
    (hx : ∀ x, Spare img x → Disjoint P (blockBytes x)) : Disjoint P (toolBytes img b n d) := by
  refine Set.disjoint_union_right.2 ⟨Set.disjoint_union_right.2 ⟨Set.disjoint_union_right.2 ⟨hb,
    Set.disjoint_union_right.2 ⟨hn, hd⟩⟩, Set.disjoint_union_right.2
    ⟨Set.disjoint_union_right.2 ⟨hi, hk⟩, hc⟩⟩, Set.disjoint_left.2 fun a ha hmem => ?_⟩
  obtain ⟨x, hspare, hax⟩ := hmem
  exact Set.disjoint_left.1 (hx x hspare) ha hax

theorem disjoint_header_zero : Disjoint header (blockBytes 0) := by
  rw [Set.disjoint_left]
  simp only [header, blockBytes, ext2BlockSize, Set.mem_union, Set.mem_Ico]
  omega

namespace Site

theorem data (h : Site img d b n) : IsData img b := ((h.sound.dirs d h.dir).data b h.block).1

theorem ne_dir (h : Site img d b n) : n ≠ d := by
  rintro rfl
  exact h.file h.dir

/-- A directory's block is in use. -/
theorem not_spare (h : Site img d b n) : ¬ Spare img b := by
  obtain ⟨hdata, -, hmarked⟩ := (h.sound.dirs d h.dir).data b h.block
  rintro (rfl | ⟨-, -, hfree⟩)
  · exact absurd hdata.three_le (by decide)
  · rw [hmarked] at hfree
    cases hfree

theorem spare_table (h : Site img d b n) (hx : Spare img x) :
    x < bgInodeTable img ∨ tableEnd img ≤ x * ext2BlockSize := by
  rcases h.sound.spare hx with rfl | hdata
  · have hpos := h.sound.geometry.table
    exact .inl (by omega)
  · exact hdata.table

theorem spare_le (h : Site img d b n) (hx : Spare img x) : x ≤ 8192 := by
  rcases hx with rfl | ⟨-, hle, -⟩
  · exact Nat.zero_le _
  · exact hle.trans h.sound.geometry.blocks

theorem header (h : Site img d b n) : Disjoint (toolBytes img b n d) header := by
  have hg := h.sound.geometry
  obtain ⟨hd₁, hd₂⟩ := h.sound.range h.dir
  refine (disjoint_toolBytes (disjoint_blockBytes_header h.data.three_le).symm
    (disjoint_inodeField_header hg h.one_le h.le (by omega)).symm
    (disjoint_inodeField_header hg hd₁ hd₂ (by omega)).symm
    (disjoint_blockBytes_header hg.inodeBitmap).symm
    (disjoint_blockBytes_header hg.blockBitmap).symm disjoint_freeCounts_header.symm
    fun x hx => ?_).symm
  rcases h.sound.spare hx with rfl | hdata
  · exact disjoint_header_zero
  · exact (disjoint_blockBytes_header hdata.three_le).symm

theorem shape (h : Site img d b n) (hf : Frame (toolBytes img b n d) img img') :
    SameShape img img' := .of_frame hf h.header

/-- A directory's block that is not `b`. -/
theorem disjoint_block (h : Site img d b n) (hm : (space img).Reach m) (hk : k ∈ blockList img m)
    (hne : k ≠ b) : Disjoint (blockBytes k) (toolBytes img b n d) := by
  obtain ⟨hdata, hle, hmarked⟩ := (h.sound.dirs m hm).data k hk
  obtain ⟨hd₁, hd₂⟩ := h.sound.range h.dir
  refine disjoint_toolBytes (disjoint_blockBytes hne)
    (disjoint_inodeField_blockBytes h.one_le h.le (by omega) hdata.table).symm
    (disjoint_inodeField_blockBytes hd₁ hd₂ (by omega) hdata.table).symm
    (disjoint_blockBytes hdata.inodeBitmap) (disjoint_blockBytes hdata.blockBitmap)
    (disjoint_blockBytes_freeCounts hdata.three_le) fun x hx => disjoint_blockBytes ?_
  rintro rfl
  rcases hx with rfl | ⟨-, -, hfree⟩
  · exact absurd hdata.three_le (by decide)
  · rw [hmarked] at hfree
    cases hfree

/-- A field of another inode, but for the link count of `d`. -/
theorem disjoint_inode (h : Site img d b n) (h₁ : 1 ≤ m) (h₂ : m ≤ sInodesCount img) (hne : m ≠ n)
    (hlen : off + len ≤ 128) (hoff : m ≠ d ∨ off + len ≤ 26 ∨ 28 ≤ off) :
    Disjoint (inodeField img m off len) (toolBytes img b n d) := by
  have hg := h.sound.geometry
  obtain ⟨hd₁, -⟩ := h.sound.range h.dir
  refine disjoint_toolBytes (disjoint_inodeField_blockBytes h₁ h₂ hlen h.data.table)
    (disjoint_inodeField h₁ h.one_le hlen (by omega) (.inl hne))
    (disjoint_inodeField h₁ hd₁ hlen (by omega) hoff)
    (disjoint_inodeField_blockBytes h₁ h₂ hlen hg.inodeBitmap_table)
    (disjoint_inodeField_blockBytes h₁ h₂ hlen hg.blockBitmap_table)
    (disjoint_inodeField_freeCounts hg h₁ h₂ hlen) fun x hx => ?_
  exact disjoint_inodeField_blockBytes h₁ h₂ hlen (h.spare_table hx)

section

variable (h : Site img d b n) (hf : Frame (toolBytes img b n d) img img')
include h hf

theorem agree (hm : (space img).Reach m) (hk : k ∈ blockList img m) (hne : k ≠ b) :
    Agree img img' (k * ext2BlockSize) (k * ext2BlockSize + ext2BlockSize) :=
  agree_blockBytes hf (h.disjoint_block hm hk hne)

theorem iMode_eq (h₁ : 1 ≤ m) (h₂ : m ≤ sInodesCount img) (hne : m ≠ n) :
    iMode img' m = iMode img m :=
  Ext2.iMode_eq hf (h.shape hf) (h.disjoint_inode h₁ h₂ hne (by omega) (by omega))

theorem iLinksCount_eq (h₁ : 1 ≤ m) (h₂ : m ≤ sInodesCount img) (hne : m ≠ n) (hne' : m ≠ d) :
    iLinksCount img' m = iLinksCount img m :=
  Ext2.iLinksCount_eq hf (h.shape hf) (h.disjoint_inode h₁ h₂ hne (by omega) (.inl hne'))

theorem iBlock_eq (h₁ : 1 ≤ m) (h₂ : m ≤ sInodesCount img) (hne : m ≠ n) (hk : k ≤ 12) :
    iBlock img' m k = iBlock img m k := by
  have hdisj : Disjoint (inodeField img m (40 + 4 * k) 4) (toolBytes img b n d) :=
    h.disjoint_inode h₁ h₂ hne (by omega) (by omega)
  have hload := load_inodeField hf (h.shape hf) hdisj
  rw [← Nat.add_assoc, ← Nat.add_assoc] at hload
  exact hload

theorem blockList_eq (h₁ : 1 ≤ m) (h₂ : m ≤ sInodesCount img) (hne : m ≠ n) :
    blockList img' m = blockList img m :=
  Ext2.blockList_eq hf (h.shape hf) (h.disjoint_inode h₁ h₂ hne (by omega) (by omega))

end

end Site

/-! ## Edits -/

/-- The used entries in `gone`, which are a file's, have been taken out of block `b`, and those in
`come` put in. No entry that stays names `n`, or `n` is no directory afterwards. -/
structure Edited (img img' : Image) (d b n : ℕ) (gone come : Set ℕ) : Prop where
  site : Site img d b n
  frame : Frame (toolBytes img b n d) img img'
  ok : BlockOk img' b
  dirOf : ∀ m, isDirOf img' m b = isDirOf img m b
  live : ∀ q, q ∈ blockEntries img' b ∧ isLive img' q = true ↔
    (q ∈ blockEntries img b ∧ isLive img q = true) ∧ q ∉ gone ∨ q ∈ come
  kept : ∀ q ∈ blockEntries img b, isLive img q = true → q ∉ gone → entryAt img' q = entryAt img q
  gone_mem : ∀ q ∈ gone, q ∈ blockEntries img b ∧ isLive img q = true ∧ IsFileEntry img q
  fresh : ∀ q ∈ come, q ∉ blockEntries img b
  stays : ∀ q ∈ (space img).entries, q ∉ gone → deInode img q = n → ¬ (space img').isDir n
  marked : ∀ x ≤ sBlocksCount img, marked img x = true → Ext2.marked img' x = true
  bits : ∀ i, i < sInodesCount img → bit img' (bgInodeBitmap img) i = true →
    bit img (bgInodeBitmap img) i = true ∨ i + 1 = n

namespace Edited

variable (h : Edited img img' d b n gone come)
include h

theorem shape : SameShape img img' := h.site.shape h.frame

/-- The entries of another block that a directory has. -/
theorem other (hm : (space img).Reach m) (hk : k ∈ blockList img m) (hne : k ≠ b) :
    BlockOk img' k ∧ blockEntries img' k = blockEntries img k ∧
      (∀ q ∈ blockEntries img k, entryAt img' q = entryAt img q) ∧
      ∀ i, isDirOf img' i k = isDirOf img i k :=
  ((h.site.sound.dirs m hm).blocks k hk).congr (h.site.agree h.frame hm hk hne)

theorem blockList_eq (hm : (space img).Reach m) : blockList img' m = blockList img m := by
  obtain ⟨h₁, h₂⟩ := h.site.sound.range hm
  refine h.site.blockList_eq h.frame h₁ h₂ ?_
  rintro rfl
  exact h.site.file hm

theorem isDir_iff (h₁ : 1 ≤ m) (h₂ : m ≤ sInodesCount img) (hne : m ≠ n) :
    (space img').isDir m ↔ (space img).isDir m := by
  show modeType (iMode img' m) = ext2SIfdir ↔ modeType (iMode img m) = ext2SIfdir
  rw [h.site.iMode_eq h.frame h₁ h₂ hne]

/-- An entry that stays names what it did. -/
theorem entryAt_eq (hq : q ∈ (space img).entries) (hkept : q ∉ gone) :
    entryAt img' q = entryAt img q := by
  obtain ⟨m, k, hm, hk, hqk, hlive⟩ := mem_entries.1 hq
  by_cases hkb : k = b
  · rw [hkb] at hqk
    exact h.kept q hqk hlive hkept
  · exact (h.other hm hk hkb).2.2.1 q hqk

theorem come_fresh (hq : q ∈ come) : q ∉ (space img).entries := by
  intro hmem
  obtain ⟨m, k, hm, hk, hqk, -⟩ := mem_entries.1 hmem
  have hqb : q ∈ blockEntries img' b := ((h.live q).2 (.inr hq)).1
  have hkb : k = b := by
    rw [← ((h.site.sound.dirs m hm).blocks k hk).div_eq hqk, h.ok.div_eq hqb]
  rw [hkb] at hqk
  exact h.fresh q hq hqk

/-- The places of a directory that was reached. -/
theorem mem_places (hm : (space img).Reach m) : q ∈ (space img').places m ↔
    q ∈ (space img).places m ∧ q ∉ gone ∨ q ∈ come ∧ m = d := by
  rw [Ext2.mem_places, Ext2.mem_places, h.blockList_eq hm]
  constructor
  · rintro ⟨k, hk, hq, hlive⟩
    by_cases hkb : k = b
    · rw [hkb] at hk hq
      rcases (h.live q).1 ⟨hq, hlive⟩ with ⟨⟨hq, hlive⟩, hkept⟩ | hcome
      · exact .inl ⟨⟨b, hk, hq, hlive⟩, hkept⟩
      · exact .inr ⟨hcome, h.site.sound.apart m d hm h.site.dir b hk h.site.block⟩
    · obtain ⟨-, hentries, hsame, -⟩ := h.other hm hk hkb
      rw [hentries] at hq
      rw [isLive_of_entryAt (hsame q hq)] at hlive
      refine .inl ⟨⟨k, hk, hq, hlive⟩, fun hgone => hkb ?_⟩
      have hqb := (h.gone_mem q hgone).1
      rw [← ((h.site.sound.dirs m hm).blocks k hk).div_eq hq,
        ((h.site.sound.dirs d h.site.dir).blocks b h.site.block).div_eq hqb]
  · rintro (⟨⟨k, hk, hq, hlive⟩, hkept⟩ | ⟨hcome, rfl⟩)
    · by_cases hkb : k = b
      · rw [hkb] at hk hq
        obtain ⟨hq, hlive⟩ := (h.live q).2 (.inl ⟨⟨hq, hlive⟩, hkept⟩)
        exact ⟨b, hk, hq, hlive⟩
      · obtain ⟨-, hentries, hsame, -⟩ := h.other hm hk hkb
        refine ⟨k, hk, by rw [hentries]; exact hq, ?_⟩
        rw [isLive_of_entryAt (hsame q hq)]
        exact hlive
    · obtain ⟨hq, hlive⟩ := (h.live q).2 (.inr hcome)
      exact ⟨b, h.site.block, hq, hlive⟩

/-- **An edit changes the name space.** -/
theorem changes : Space.Changes (space img) (space img') d gone come where
  root := rfl
  dir := h.site.dir
  gone_mem q hq := by
    obtain ⟨hqb, hlive, hfile⟩ := h.gone_mem q hq
    have hmem := mem_entries.2 ⟨d, b, h.site.dir, h.site.block, hqb, hlive⟩
    exact ⟨hmem, h.site.sound.types q hmem hfile⟩
  fresh q hq := h.come_fresh hq
  places m hm q := h.mem_places hm
  target q hq hkept := deInode_of_entryAt (h.entryAt_eq hq hkept)
  isDir q hq hkept := by
    obtain ⟨m, k, hm, hk, hqk, hlive⟩ := mem_entries.1 hq
    by_cases hn : deInode img q = n
    · refine iff_of_false ?_ fun hdir => h.site.file ?_
      · show ¬ (space img').isDir (deInode img q)
        rw [hn]
        exact h.stays q hq hkept hn
      · have hstep := hm.step (Ext2.mem_places.2 ⟨k, hk, hqk, hlive⟩) hdir
        rw [← hn]
        exact hstep
    · exact h.isDir_iff (Nat.one_le_iff_ne_zero.2 (deInode_ne_zero hlive))
        (h.site.sound.named q hq) hn

/-! ### The image afterwards -/

theorem isData (hx : IsData img x) : IsData img' x := h.shape.isData hx

/-- A directory that was in order is in order. -/
theorem dirSound (hm : (space img).Reach m) : DirSound img' m := by
  have hsound := h.site.sound.dirs m hm
  obtain ⟨h₁, h₂⟩ := h.site.sound.range hm
  have hmn : m ≠ n := fun heq => h.site.file (heq ▸ hm)
  have hlist := h.blockList_eq hm
  refine ⟨?_, fun k hk => ?_, fun k hk => ?_, fun k hk i hi hdir => ?_⟩
  · obtain ⟨k, hk, hzero⟩ := hsound.ends
    exact ⟨k, hk, by rw [h.site.iBlock_eq h.frame h₁ h₂ hmn hk]; exact hzero⟩
  · rw [hlist] at hk
    by_cases hkb : k = b
    · rw [hkb]
      exact h.ok
    · exact (h.other hm hk hkb).1
  · rw [hlist] at hk
    obtain ⟨hdata, hle, hmarked⟩ := hsound.data k hk
    exact ⟨h.isData hdata, by rw [h.shape.blocks]; exact hle, h.marked k hle hmarked⟩
  · rw [hlist] at hk
    refine hsound.dots k hk i hi ?_
    by_cases hkb : k = b
    · rw [hkb] at hdir ⊢
      rw [← h.dirOf]
      exact hdir
    · rw [← (h.other hm hk hkb).2.2.2]
      exact hdir

theorem isFileEntry_iff (hq : q ∈ (space img).entries) (hkept : q ∉ gone) :
    IsFileEntry img' q ↔ IsFileEntry img q := by
  have htype : fileType img' q = fileType img q :=
    congrArg DirEntry.fileType (h.entryAt_eq hq hkept)
  unfold IsFileEntry
  rw [htype]

/-- A directory that `init` lists afterwards is `n`, or it was listed before. -/
theorem listed (hm : m ∈ listedDirs img') : m = n ∧ (space img').isDir n ∨
    (space img).Reach m := by
  obtain ⟨huse, hmode⟩ := mem_listedDirs.1 hm
  have hshape := h.shape
  have hrange : 1 ≤ m ∧ m ≤ sInodesCount img := by
    rcases huse with rfl | ⟨-, huse⟩
    · exact ⟨by decide, h.site.sound.rootLe⟩
    · simp only [inUse, Bool.and_eq_true, decide_eq_true_eq, hshape.inodes] at huse
      exact huse.1
  by_cases hmn : m = n
  · rw [hmn] at hmode
    exact .inl ⟨hmn, hmode⟩
  · refine .inr (h.site.sound.listed m (mem_listedDirs.2 ⟨huse.imp_right fun huse => ?_, ?_⟩))
    · obtain ⟨hge, huse⟩ := huse
      simp only [inUse, Bool.and_eq_true, decide_eq_true_eq, hshape.inodes,
        hshape.inodeBitmap] at huse ⊢
      refine ⟨hge, huse.1, ?_⟩
      rcases h.bits (m - 1) (by omega) huse.2 with hbit | heq
      · exact hbit
      · exact absurd (by omega) hmn
    · rw [← h.site.iMode_eq h.frame hrange.1 hrange.2 hmn]
      exact hmode

theorem reserved (hx₁ : 1 ≤ x) (hx₂ : x ≤ sBlocksCount img') (hno : ¬ IsData img' x) :
    Ext2.marked img' x = true := by
  rw [h.shape.blocks] at hx₂
  exact h.marked x hx₂ (h.site.sound.reserved x hx₁ hx₂ fun hdata => hno (h.isData hdata))

section

variable (hfile : ¬ (space img').isDir n) (hcome : ∀ q ∈ come, deInode img' q = n)
include hfile hcome

omit h in
/-- No place that comes names a directory. -/
theorem come_file (q : ℕ) (hq : q ∈ come) : ¬ (space img').isDir ((space img').target q) := by
  show ¬ (space img').isDir (deInode img' q)
  rw [hcome q hq]
  exact hfile

/-- **The image is sound still** when `n` is a file and the new entries name it. -/
theorem sound : Sound img' := by
  have hs := h.site.sound
  have hshape := h.shape
  have hreach : ∀ {m}, (space img').Reach m ↔ (space img).Reach m :=
    h.changes.reach (come_file hfile hcome)
  have hnamed : ∀ q ∈ (space img').entries, (q ∈ (space img).entries ∧ q ∉ gone ∧
      deInode img' q = deInode img q) ∨ q ∈ come := fun q hq =>
    h.changes.mem_entries (come_file hfile hcome) hq
  have hroot : ext2RootIno ≠ n := fun heq => h.site.file (heq ▸ .root)
  refine ⟨hshape.geometry hs.geometry, hshape.tablesInside hs.tables, ?_, ?_,
    fun m hm => h.dirSound (hreach.1 hm),
    fun m m' hm hm' k hk hk' => ?_, fun q hq => ?_, fun q hq htype => ?_, fun m hm => ?_,
    fun x hx₁ hx₂ hno => h.reserved hx₁ hx₂ hno⟩
  · exact (h.isDir_iff (by decide) hs.rootLe hroot).2 hs.root
  · rw [hshape.inodes]
    exact hs.rootLe
  · rw [h.blockList_eq (hreach.1 hm)] at hk
    rw [h.blockList_eq (hreach.1 hm')] at hk'
    exact hs.apart m m' (hreach.1 hm) (hreach.1 hm') k hk hk'
  · rw [hshape.inodes]
    rcases hnamed q hq with ⟨hq, -, heq⟩ | hq
    · rw [heq]
      exact hs.named q hq
    · rw [hcome q hq]
      exact h.site.le
  · rcases hnamed q hq with ⟨hq, hkept, heq⟩ | hq
    · rw [heq, show (space img').isDir (deInode img q) ↔ _ from h.changes.isDir q hq hkept]
      exact hs.types q hq ((h.isFileEntry_iff hq hkept).1 htype)
    · rw [hcome q hq]
      exact hfile
  · rcases h.listed hm with ⟨rfl, hdir⟩ | hm
    · exact absurd hdir hfile
    · exact hreach.2 hm

end

end Edited

/-! ## One entry -/

variable {as bs : List ℕ} {pre new : ℕ} {e : DirEntry}

/-- An entry behind another can be moved to the front. -/
theorem perm_second (as : List ℕ) (q r : ℕ) (bs : List ℕ) :
    (as ++ q :: r :: bs).Perm (r :: (as ++ q :: bs)) := by
  have hperm : (as ++ [q] ++ r :: bs).Perm (r :: (as ++ [q] ++ bs)) := List.perm_middle
  simpa only [List.append_assoc, List.singleton_append] using hperm

theorem mem_second {r x : ℕ} : r ∈ as ++ q :: x :: bs ↔ r = x ∨ r ∈ as ++ q :: bs :=
  (perm_second as q x bs).mem_iff.trans List.mem_cons

theorem notMem_of_nodup {r : ℕ} (h : (as ++ q :: r :: bs).Nodup) : r ∉ as ++ q :: bs :=
  (List.nodup_cons.1 ((perm_second as q r bs).nodup_iff.1 h)).1

/-- What a tool does to the bitmaps while it edits a block for inode `n`: no block and no other
inode loses or gets its mark. -/
structure Stage (img img' : Image) (b n d : ℕ) : Prop where
  frame : Frame (toolBytes img b n d) img img'
  marked : ∀ x ≤ sBlocksCount img, marked img x = true → Ext2.marked img' x = true
  bits : ∀ i, i < sInodesCount img → bit img' (bgInodeBitmap img) i = true →
    bit img (bgInodeBitmap img) i = true ∨ i + 1 = n

/-- A used entry that names `n` has been put in. -/
theorem Stage.added (hs : Site img d b n) (h : Stage img img' b n d)
    (hadd : Added img img' b as q new bs e) (he : e.inode = n)
    (hstays : ∀ q ∈ (space img).entries, deInode img q = n → ¬ (space img').isDir n) :
    Edited img img' d b n ∅ {new} := by
  have hnodup : (as ++ q :: new :: bs).Nodup := hadd.after ▸ hadd.ok.tiles.nodup
  have hnew : deInode img' new = n := (congrArg DirEntry.inode hadd.entry).trans he
  have hlive : isLive img' new = true := by
    have hn := hs.one_le
    simp only [isLive, hnew, bne_iff_ne]
    omega
  refine ⟨hs, h.frame, hadd.ok, hadd.dirOf, fun r => ?_, fun r hr _ _ => ?_,
    fun r hr => absurd hr (Set.notMem_empty r), fun r hr => ?_,
    fun r hr _ => hstays r hr, h.marked, h.bits⟩
  · rw [hadd.before, hadd.after, and_iff_left (Set.notMem_empty r), Set.mem_singleton_iff]
    constructor
    · rintro ⟨hr, hrlive⟩
      by_cases hrn : r = new
      · exact .inr hrn
      · have hr : r ∈ as ++ q :: bs := (mem_second.1 hr).resolve_left hrn
        rw [isLive_of_entryAt (hadd.same r hr)] at hrlive
        exact .inl ⟨hr, hrlive⟩
    · rintro (⟨hr, hrlive⟩ | rfl)
      · rw [isLive_of_entryAt (hadd.same r hr)]
        exact ⟨mem_second.2 (.inr hr), hrlive⟩
      · exact ⟨by simp, hlive⟩
  · rw [hadd.before] at hr
    exact hadd.same r hr
  · obtain rfl := Set.mem_singleton_iff.1 hr
    rw [hadd.before]
    exact notMem_of_nodup hnodup

/-- A used entry of a file has been taken out. -/
theorem Stage.removed (hs : Site img d b n) (h : Stage img img' b n d)
    (hrem : Removed img img' b as pre q bs) (hlive : isLive img q = true)
    (hfile : IsFileEntry img q)
    (hstays : ∀ q' ∈ (space img).entries, deInode img q' = n → ¬ (space img').isDir n) :
    Edited img img' d b n {q} ∅ := by
  have hok := (hs.sound.dirs d hs.dir).blocks b hs.block
  have hq : q ∉ as ++ pre :: bs := notMem_of_nodup (hrem.before ▸ hok.tiles.nodup)
  refine ⟨hs, h.frame, hrem.ok, hrem.dirOf, fun r => ?_, fun r hr _ hkept => ?_, fun r hr => ?_,
    fun r hr => absurd hr (Set.notMem_empty r), fun r hr _ => hstays r hr, h.marked, h.bits⟩
  · rw [hrem.before, hrem.after, Set.mem_singleton_iff, or_iff_left (Set.notMem_empty r)]
    constructor
    · rintro ⟨hr, hrlive⟩
      rw [isLive_of_entryAt (hrem.same r hr)] at hrlive
      exact ⟨⟨mem_second.2 (.inr hr), hrlive⟩, fun heq => hq (heq ▸ hr)⟩
    · rintro ⟨⟨hr, hrlive⟩, hne⟩
      have hr : r ∈ as ++ pre :: bs := (mem_second.1 hr).resolve_left hne
      rw [isLive_of_entryAt (hrem.same r hr)]
      exact ⟨hr, hrlive⟩
  · refine hrem.same r ?_
    rw [hrem.before] at hr
    exact (mem_second.1 hr).resolve_left hkept
  · obtain rfl := Set.mem_singleton_iff.1 hr
    rw [hrem.before]
    exact ⟨by simp, hlive, hfile⟩

/-- The entries of the block are as they were. -/
theorem Stage.unchanged (hs : Site img d b n) (h : Stage img img' b n d)
    (hag : Agree img img' (b * ext2BlockSize) (b * ext2BlockSize + ext2BlockSize))
    (hstays : ∀ q ∈ (space img).entries, deInode img q = n → ¬ (space img').isDir n) :
    Edited img img' d b n ∅ ∅ := by
  have hok := (hs.sound.dirs d hs.dir).blocks b hs.block
  obtain ⟨hok', hlist, hentries, hdir⟩ := hok.congr hag
  refine ⟨hs, h.frame, hok', hdir, fun r => ?_, fun r hr _ _ => hentries r hr,
    fun r hr => absurd hr (Set.notMem_empty r), fun r hr => absurd hr (Set.notMem_empty r),
    fun r hr _ => hstays r hr, h.marked, h.bits⟩
  rw [hlist, and_iff_left (Set.notMem_empty r), or_iff_left (Set.notMem_empty r)]
  refine and_congr_right fun hr => ?_
  rw [isLive_of_entryAt (hentries r hr)]

end Cscc69.Ext2
