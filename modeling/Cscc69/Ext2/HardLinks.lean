import Cscc69.Ext2.Creation

/-!
# Hard links

`ext2_ln` without `-s` adds a name for the inode that it finds at its first path. It does so with
the helpers that make a new file: the new entry says that it is a regular file's, and `allocate`
sets the mode of the inode anew, without permissions. The inode and the parent are those that
`traverse` finds, and whether the first path is a file's is read from the first entry with its last
name, in whichever directory.

* `addHardLink_added`: what the tool changes.
* `hardLink_iff`: when nothing but the name and the count of links has changed.
-/

namespace Cscc69.Ext2

open Bytes Records Naming

variable {img img' : Image} {n m b d k p pos q r : ℕ} {name path path₁ path₂ : Name} {t : Tables}
  {as bs : List ℕ} {e : DirEntry}

/-! ## The parent -/

theorem getLastD_mem {names : List Name} (h : names ≠ []) : names.getLastD [] ∈ names := by
  rw [List.getLastD_eq_getLast?, List.getLast?_eq_some_getLast h]
  exact List.getLast_mem h

/-- The parent that is taken is the one at the components before the last, up to the first with the
name of the last of these. -/
theorem lnParent_eq (hwf : WellFormed img) (hinit : init img = some t) :
    lnParent t img path = some (arrival img ext2RootIno
      (cutAt ((tokens path).dropLast.getLastD []) (tokens path).dropLast)) := by
  unfold lnParent
  split
  · rename_i hlen
    have hne : (tokens path).dropLast ≠ [] := by
      rw [ne_eq, ← List.length_eq_zero_iff, List.length_dropLast]
      omega
    have hmem := getLastD_mem hne
    have hno := slash_notMem_tokens (List.dropLast_subset _ hmem)
    rcases tokens_getParentPath hlen with heq | heq
    · rw [heq, traversePath_names hwf hinit hmem hno]
    · rw [heq, traversePath_names hwf hinit (List.dropLast_subset _ hmem) hno]
      have hsplit := List.dropLast_append_getLast (List.ne_nil_of_mem (List.dropLast_subset _ hmem))
      conv_lhs => rw [← hsplit]
      rw [cutAt_append_of_mem (by simpa using hmem)]
      simp
  · rename_i hlen
    have hnil : (tokens path).dropLast = [] := by
      rw [← List.length_eq_zero_iff, List.length_dropLast]
      omega
    rw [hnil]
    rfl

/-! ## What the tool changes -/

/-- The block of the parent, and the mode and the count of links of the inode. -/
def linkBytes (img : Image) (b r : ℕ) : Set ℕ :=
  blockBytes b ∪ (inodeField img r 0 2 ∪ inodeField img r 26 2)

theorem linkFile_frame (hg : Geometry img) (h₁ : 1 ≤ r) (h₂ : r ≤ sInodesCount img) :
    Frame (inodeField img r 0 2 ∪ inodeField img r 26 2) img (linkFile img r) ∧
      iMode (linkFile img r) r = ext2SIfreg ∧
      iLinksCount (linkFile img r) r = (iLinksCount img r + 1) % 65536 := by
  let im := setIMode img r ext2SIfreg
  have hframe : Frame (inodeField img r 0 2) img im :=
    frame_storeInode (k := 0) subset_rfl (.refl _ _) (.refl _) le_rfl le_rfl
  have hshape : SameShape img im :=
    .of_frame hframe (disjoint_inodeField_header hg h₁ h₂ (by decide))
  have hlinks : Frame (inodeField img r 26 2) im (linkFile img r) := by
    rw [← hshape.inodeField_eq]
    exact frame_storeInode subset_rfl (.refl _ _) (.refl _) le_rfl le_rfl
  have hshape' : SameShape im (linkFile img r) :=
    .of_frame hlinks (disjoint_inodeField_header hg h₁ h₂ (by decide))
  refine ⟨(hframe.mono Set.subset_union_left).trans (hlinks.mono Set.subset_union_right), ?_, ?_⟩
  · have hmode : iMode (linkFile img r) r = iMode im r := by
      refine iMode_eq hlinks hshape' ?_
      rw [hshape.inodeField_eq]
      exact disjoint_inodeField h₁ h₁ (by decide) (by decide) (.inr (by decide))
    rw [hmode, iMode, hshape.inodeAddr_eq]
    exact load_store _ _ _ _
  · have hcount : iLinksCount im r = iLinksCount img r := iLinksCount_eq hframe hshape
      (disjoint_inodeField h₁ h₁ (by decide) (by decide) (.inr (by decide)))
    rw [← hcount, iLinksCount, hshape'.inodeAddr_eq]
    exact load_store _ _ _ _

/-- An entry for inode `r` has been added to block `b` of directory `d` or not, and `r` has become a
regular file with one more link. -/
structure LinkTried (t : Tables) (img img' : Image) (d b r : ℕ) (name : Name) : Prop where
  block : b ∈ blockList img d
  dirOf : isDirOf img d b = true
  data : IsData img b
  ok : BlockOk img b
  frame : Frame (linkBytes img b r) img img'
  mode : iMode img' r = ext2SIfreg
  links : iLinksCount img' r = (iLinksCount img r + 1) % 65536
  entry : ¬ HasRoom t img d name ext2FtRegFile ∧
      Agree img img' (b * ext2BlockSize) (b * ext2BlockSize + ext2BlockSize) ∨
    HasRoom t img d name ext2FtRegFile ∧
      ∃ as q new bs, Added img img' b as q new bs ⟨r, ext2FtRegFile, name⟩

/-- **What `ext2_ln` does after its checks.** -/
theorem addHardLink_added (h : Sound img) (hinit : init img = some t) (hd : d ≠ 0)
    (hname : name.length < 255) (hr₁ : 1 ≤ r) (hr₂ : r ≤ sInodesCount img)
    (hadd : addHardLink t img d r name = some img') : ∃ b, LinkTried t img img' d b r name := by
  have hinodes := h.geometry.inodes
  unfold addHardLink at hadd
  split at hadd
  · cases hadd
  · rename_i res im hlink
    rw [allocate_file_eq, if_neg (by omega)] at hadd
    obtain rfl := Option.some.inj hadd
    obtain ⟨b, hb, hpos, hreach, hcases⟩ := createLink_found h hinit hd (fun _ _ => .refl _ _ _)
      hname (by omega) (by decide) (by decide) hlink
    have hdir := h.dirs d hreach
    have hdata := (hdir.data b hb).1
    have hdirOf : isDirOf img d b = true := by
      obtain ⟨b', hfind, heq⟩ := Option.map_eq_some_iff.1 hpos
      have hsize : ext2BlockSize = 1024 := rfl
      rw [hsize] at heq
      obtain rfl : b' = b := by omega
      exact List.find?_some hfind
    have hframe : Frame (blockBytes b) img im := by
      rcases hcases with ⟨-, heq⟩ | ⟨-, -, as, q, new, bs, hl⟩
      · rw [show im = img from congrArg Prod.snd heq]
        exact .refl _ _
      · exact hl.frame
    have hshape : SameShape img im := .of_frame hframe (disjoint_blockBytes_header hdata.three_le)
    obtain ⟨hlinked, hmode, hlinks⟩ := linkFile_frame (hshape.geometry h.geometry) hr₁
      (show r ≤ sInodesCount im by rw [hshape.inodes]; exact hr₂)
    have hag : Agree im (linkFile im r) (b * ext2BlockSize)
        (b * ext2BlockSize + ext2BlockSize) := by
      refine agree_blockBytes hlinked ?_
      rw [hshape.inodeField_eq, hshape.inodeField_eq]
      exact Set.disjoint_union_right.2
        ⟨(disjoint_inodeField_blockBytes hr₁ hr₂ (by decide) hdata.table).symm,
          (disjoint_inodeField_blockBytes hr₁ hr₂ (by decide) hdata.table).symm⟩
    have hcount : iLinksCount im r = iLinksCount img r := iLinksCount_eq hframe hshape
      (disjoint_inodeField_blockBytes hr₁ hr₂ (by decide) hdata.table)
    rw [hshape.inodeField_eq, hshape.inodeField_eq] at hlinked
    refine ⟨b, hb, hdirOf, hdata, hdir.blocks b hb, ?_, hmode, by rw [hlinks, hcount], ?_⟩
    · exact (hframe.mono Set.subset_union_left).trans (hlinked.mono Set.subset_union_right)
    · rcases hcases with ⟨hno, heq⟩ | ⟨hroom, -, as, q, new, bs, hl⟩
      · obtain rfl : im = img := congrArg Prod.snd heq
        exact .inl ⟨hno, hag⟩
      · exact .inr ⟨hroom, as, q, new, bs, hl.added.congr hag⟩

/-! ## The used entries -/

/-- A name stands for the first used entry of that name. -/
theorem lookup_eq (img : Image) (n : ℕ) (name : Name) : lookup img n name =
    if isDirectory img n then
      ((liveEntries img n).find? fun e => e.2.name == name).map fun e => e.2.inode
    else none := by
  unfold lookup liveEntries
  split
  · have hfound : (fun pos => isLive img pos && deName img pos == name) =
        fun pos => decide (isLive img pos = true ∧
          ((fun e : ℕ × DirEntry => e.2.name == name) ∘ fun pos => (pos, entryAt img pos)) pos =
            true) := by
      funext pos
      rw [Bool.eq_iff_iff]
      simp [entryAt]
    rw [List.find?_map, List.find?_filter, Option.map_map, hfound]
    rfl
  · rfl

theorem liveEntries_congr (hlist : blockList img' n = blockList img n)
    (hblocks : ∀ k ∈ blockList img n, BlockOk img k ∧
      Agree img img' (k * ext2BlockSize) (k * ext2BlockSize + ext2BlockSize)) :
    liveEntries img' n = liveEntries img n := by
  rw [liveEntries_eq, liveEntries_eq, hlist]
  exact List.flatMap_congr fun k hk => (hblocks k hk).1.liveBlock_congr (hblocks k hk).2

/-- The used entries of the block that gets a used one. -/
theorem Added.liveBlock {new : ℕ} (h : Added img img' b as q new bs e) (he : e.inode ≠ 0) :
    ∃ cs ds, liveBlock img b = cs ++ ds ∧ liveBlock img' b = cs ++ (new, e) :: ds := by
  have hsame : ∀ r ∈ (as ++ [q]) ++ bs, entryAt img' r = entryAt img r := by
    simpa using h.same
  have hpart : ∀ l : List ℕ, (∀ r ∈ l, r ∈ (as ++ [q]) ++ bs) →
      (l.filter (isLive img')).map (fun r => (r, entryAt img' r)) =
        (l.filter (isLive img)).map fun r => (r, entryAt img r) := by
    intro l hl
    rw [List.filter_congr fun r hr => isLive_of_entryAt (hsame r (hl r hr))]
    exact List.map_congr_left fun r hr => by rw [hsame r (hl r (List.mem_of_mem_filter hr))]
  have hlive : isLive img' new = true := by
    rw [isLive, bne_iff_ne, show deInode img' new = e.inode from congrArg DirEntry.inode h.entry]
    exact he
  have hafter : blockEntries img' b = (as ++ [q]) ++ new :: bs := by simpa using h.after
  have hbefore : blockEntries img b = (as ++ [q]) ++ bs := by simpa using h.before
  refine ⟨((as ++ [q]).filter (isLive img)).map (fun r => (r, entryAt img r)),
    (bs.filter (isLive img)).map (fun r => (r, entryAt img r)), ?_, ?_⟩
  · rw [Ext2.liveBlock, hbefore, List.filter_append, List.map_append]
  · rw [Ext2.liveBlock, hafter, List.filter_append, List.filter_cons_of_pos hlive, List.map_append,
      List.map_cons, h.entry, hpart (as ++ [q]) fun r hr => List.mem_append_left _ hr,
      hpart bs fun r hr => List.mem_append_right _ hr]

/-- The block of directory `d` that gets the entry is its first, and no other directory's. -/
theorem WellFormed.only (hwf : WellFormed img) (hd : isDirOf img d b = true)
    (hn : isDirectory img n = true) (hb : b ∈ blockList img n) :
    n = d ∧ ∃ bs, blockList img n = b :: bs ∧ b ∉ bs := by
  obtain ⟨b', bs, hlist, -, hof, hlater⟩ := hwf.block hn
  have hno : b ∉ bs := by
    intro hmem
    rw [hlater b hmem d] at hd
    cases hd
  rw [hlist] at hb
  obtain rfl := (List.mem_cons.1 hb).resolve_right hno
  simp only [isDirOf, Bool.and_eq_true, beq_iff_eq] at hd hof
  exact ⟨hof.1.trans hd.1.symm, bs, hlist, hno⟩

namespace LinkTried

variable (h : LinkTried t img img' d b r name) (hc : Consistent img) (hr₁ : 1 ≤ r)
  (hr₂ : r ≤ sInodesCount img)
include h hc hr₁ hr₂

theorem shape : SameShape img img' := by
  have hg := hc.sound.geometry
  refine .of_frame h.frame ?_
  exact Set.disjoint_union_left.2 ⟨disjoint_blockBytes_header h.data.three_le,
    Set.disjoint_union_left.2 ⟨disjoint_inodeField_header hg hr₁ hr₂ (by decide),
      disjoint_inodeField_header hg hr₁ hr₂ (by decide)⟩⟩

omit hc hr₂ in
/-- A field that is another inode's, or neither the mode nor the count of links. -/
theorem disjoint_field {off len : ℕ} (hn₁ : 1 ≤ n) (hn₂ : n ≤ sInodesCount img)
    (hlen : off + len ≤ 128) (hoff : n ≠ r ∨ 2 ≤ off ∧ off + len ≤ 26 ∨ 28 ≤ off) :
    Disjoint (inodeField img n off len) (linkBytes img b r) := by
  refine Set.disjoint_union_right.2 ⟨disjoint_inodeField_blockBytes hn₁ hn₂ hlen h.data.table,
    Set.disjoint_union_right.2 ⟨disjoint_inodeField hn₁ hr₁ hlen (by decide) (by omega),
      disjoint_inodeField hn₁ hr₁ hlen (by decide) (by omega)⟩⟩

/-- A block of a directory that is not the one with the new entry. -/
theorem agree (hn : isDirectory img n = true) (hk : k ∈ blockList img n) (hne : k ≠ b) :
    Agree img img' (k * ext2BlockSize) (k * ext2BlockSize + ext2BlockSize) := by
  have hdata := (hc.intact.blocks n hn k hk).2
  exact agree_blockBytes h.frame (Set.disjoint_union_right.2 ⟨disjoint_blockBytes hne,
    Set.disjoint_union_right.2
      ⟨(disjoint_inodeField_blockBytes hr₁ hr₂ (by decide) hdata.table).symm,
        (disjoint_inodeField_blockBytes hr₁ hr₂ (by decide) hdata.table).symm⟩⟩)

theorem blockList (hn : isDirectory img n = true) : blockList img' n = Ext2.blockList img n := by
  obtain ⟨hn₁, hn₂⟩ := isDirectory_range hn
  exact blockList_eq h.frame (h.shape hc hr₁ hr₂)
    (h.disjoint_field hr₁ hn₁ hn₂ (by decide) (.inr (.inr (by decide))))

/-- The used entries of the other directories. -/
theorem others (hn : isDirectory img n = true) (hne : n ≠ d) :
    liveEntries img' n = liveEntries img n := by
  refine liveEntries_congr (h.blockList hc hr₁ hr₂ hn) fun k hk =>
    ⟨(hc.intact.blocks n hn k hk).1, h.agree hc hr₁ hr₂ hn hk ?_⟩
  rintro rfl
  exact hne (hc.intact.wellFormed.only h.dirOf hn hk).1

/-- When there was no room, those of the parent too. -/
theorem unchanged (hd : isDirectory img d = true)
    (hag : Agree img img' (b * ext2BlockSize) (b * ext2BlockSize + ext2BlockSize)) :
    liveEntries img' d = liveEntries img d := by
  refine liveEntries_congr (h.blockList hc hr₁ hr₂ hd) fun k hk =>
    ⟨(hc.intact.blocks d hd k hk).1, ?_⟩
  by_cases hkb : k = b
  · rw [hkb]
    exact hag
  · exact h.agree hc hr₁ hr₂ hd hk hkb

/-- Otherwise the parent has one more. -/
theorem inserted (hd : isDirectory img d = true) {new : ℕ}
    (hadd : Added img img' b as q new bs ⟨r, ext2FtRegFile, name⟩) :
    ∃ cs ds, liveEntries img d = cs ++ ds ∧
      liveEntries img' d = cs ++ (new, ⟨r, ext2FtRegFile, name⟩) :: ds := by
  obtain ⟨-, ks, hlist, hno⟩ := hc.intact.wellFormed.only h.dirOf hd h.block
  obtain ⟨cs, ds, hbefore, hafter⟩ := hadd.liveBlock (show r ≠ 0 by omega)
  have hrest : ks.flatMap (liveBlock img') = ks.flatMap (liveBlock img) := by
    apply List.flatMap_congr
    intro k hk
    have hmem : k ∈ Ext2.blockList img d := by
      rw [hlist]
      exact List.mem_cons_of_mem b hk
    refine (hc.intact.blocks d hd k hmem).1.liveBlock_congr (h.agree hc hr₁ hr₂ hd hmem ?_)
    rintro rfl
    exact hno hk
  refine ⟨cs, ds ++ ks.flatMap (liveBlock img), ?_, ?_⟩
  · rw [liveEntries_eq, hlist, List.flatMap_cons, hbefore, List.append_assoc]
  · rw [liveEntries_eq, h.blockList hc hr₁ hr₂ hd, hlist, List.flatMap_cons, hrest, hafter,
      List.append_assoc, List.cons_append]

end LinkTried

/-! ## Only a name -/

/-- Directory `d` is there, and has no entry with the last name of the path. -/
structure NewPath (img : Image) (path : Name) (d : ℕ) : Prop where
  nonempty : tokens path ≠ []
  parent : walk img ext2RootIno (tokens path).dropLast = some d
  directory : isDirectory img d = true
  free : lookup img d (basename path) = none

/-- The path, in directory `d`, is a new name for what the entry at `pos` names, with one more link;
all else is as it was. -/
structure OnlyAddsName (img img' : Image) (path : Name) (pos d : ℕ) : Prop where
  resolves : walk img' ext2RootIno (tokens path) = some (deInode img pos)
  entry : ∃ cs new ds, liveEntries img d = cs ++ ds ∧ liveEntries img' d =
    cs ++ (new, ⟨deInode img pos, fileType img pos, basename path⟩) :: ds
  others : ∀ n, isDirectory img n = true → n ≠ d → liveEntries img' n = liveEntries img n
  links : iLinksCount img' (deInode img pos) = iLinksCount img (deInode img pos) + 1
  fields : Agree img img' (inodeAddr img (deInode img pos))
      (inodeAddr img (deInode img pos) + 26) ∧
    Agree img img' (inodeAddr img (deInode img pos) + 28) (inodeAddr img (deInode img pos) + 128)
  inodes : ∀ n, 1 ≤ n → n ≤ sInodesCount img → n ≠ deInode img pos →
    Agree img img' (inodeAddr img n) (inodeAddr img n + 128)
  inodeBits : ∀ k < sInodesCount img,
    bit img' (bgInodeBitmap img) k = bit img (bgInodeBitmap img) k
  blockBits : ∀ k < sBlocksCount img,
    bit img' (bgBlockBitmap img) k = bit img (bgBlockBitmap img) k

/-- The two paths and the parent are found, the first entry of the name in the listed directories is
a file's, the parent has room, and the inode is a regular file without permissions, has a link left,
and the entry that names it says so. -/
structure Linkable (img : Image) (path₁ path₂ : Name) (pos d : ℕ) : Prop where
  names : ∀ w ∈ tokens path₁ ++ tokens path₂, w.length < 255
  source : Straight img path₁
  target : Straight img path₂
  parent : arrival img ext2RootIno
    (cutAt ((tokens path₂).dropLast.getLastD []) (tokens path₂).dropLast) = d
  first : ∃ q, ((listedDirs img).flatMap (dirEntries img)).find?
    (fun q => deName img q == basename path₁) = some q ∧ IsFileEntry img q
  room : ∃ t, init img = some t ∧ HasRoom t img d (basename path₂) ext2FtRegFile
  mode : iMode img (deInode img pos) = ext2SIfreg
  type : fileType img pos = ext2FtRegFile
  links : iLinksCount img (deInode img pos) < 65535

theorem NewPath.walk_append (h : NewPath img path d) (img' : Image) (n : ℕ) :
    walk img' n (tokens path) =
      (walk img' n (tokens path).dropLast).bind fun m => lookup img' m (basename path) := by
  have hsplit : tokens path = (tokens path).dropLast ++ [basename path] := by
    rw [basename, List.getLast?_eq_some_getLast h.nonempty, Option.getD_some,
      List.dropLast_append_getLast]
  conv_lhs => rw [hsplit]
  rw [Ext2.walk_append]
  congr 1
  funext m
  rw [walk_cons]
  cases lookup img' m (basename path) with
  | none => rfl
  | some _ => rfl

/-- The path leads nowhere. -/
theorem NewPath.walk (h : NewPath img path d) : walk img ext2RootIno (tokens path) = none := by
  rw [h.walk_append, h.parent, Option.bind_some, h.free]

/-- A walk stays when each name stands for what it did. -/
theorem walk_of_lookup (hlook : ∀ n name m, lookup img n name = some m →
    lookup img' n name = some m) {names : List Name} (h : walk img n names = some m) :
    walk img' n names = some m := by
  induction names generalizing n with
  | nil => exact h
  | cons name names ih =>
    rw [walk_cons] at h ⊢
    obtain ⟨m', hlookup, hwalk⟩ := Option.bind_eq_some_iff.1 h
    rw [hlook n name m' hlookup]
    exact ih hwalk

/-- What `find_dir_entry` finds. -/
theorem Intact.findDirEntry_eq (h : Intact img) (hinit : init img = some t) (r : ℕ) (name : Name) :
    findDirEntry t img r name = some (((listedDirs img).flatMap (dirEntries img)).find?
      fun q => deName img q == name) := by
  rw [findDirEntry, searchDirs_all (fun b hb => h.tiles hinit hb), ← h.findNamed_eq hinit]
  rfl

/-! ## When only a name is added -/

theorem Consistent.range (hc : Consistent img) (hentry : PathEntry img path p pos) :
    1 ≤ deInode img pos ∧ deInode img pos ≤ sInodesCount img := by
  obtain ⟨hpos, hlive, -⟩ := hentry.live
  exact ⟨Nat.one_le_iff_ne_zero.2 (deInode_ne_zero hlive),
    (hc.intact.named p hentry.directory pos hpos hlive).1⟩

section

variable (hc : Consistent img) (hr₁ : 1 ≤ r) (hr₂ : r ≤ sInodesCount img)
include hc hr₁ hr₂

omit hc in
/-- No bit of a bitmap changes. -/
theorem LinkTried.bit_eq (h : LinkTried t img img' d b r name) (hkb : m ≠ b)
    (hm : m < bgInodeTable img ∨ tableEnd img ≤ m * ext2BlockSize) (hk : k < 8192) :
    bit img' m k = bit img m k := by
  refine Ext2.bit_eq h.frame (Set.disjoint_union_right.2 ⟨disjoint_blockBytes hkb,
    Set.disjoint_union_right.2 ⟨?_, ?_⟩⟩) hk
  · exact (disjoint_inodeField_blockBytes hr₁ hr₂ (by decide) hm).symm
  · exact (disjoint_inodeField_blockBytes hr₁ hr₂ (by decide) hm).symm

/-- A directory stays one, if it is not the inode that is linked. -/
theorem LinkTried.isDirectory (h : LinkTried t img img' d b r name)
    (hfile : iMode img r = ext2SIfreg) (hn : isDirectory img n = true) :
    isDirectory img' n = true := by
  have hg := hc.sound.geometry
  have hshape := h.shape hc hr₁ hr₂
  obtain ⟨hn₁, hn₂⟩ := isDirectory_range hn
  have hinodes := hg.inodes
  rw [Ext2.isDirectory, Bool.and_eq_true, beq_iff_eq] at hn ⊢
  have hne : n ≠ r := by
    rintro rfl
    rw [hfile] at hn
    exact absurd hn.2 (by decide)
  refine ⟨?_, ?_⟩
  · rw [inUse_iff] at hn ⊢
    rw [hshape.inodes, hshape.inodeBitmap, h.bit_eq hr₁ hr₂ h.data.inodeBitmap.symm
      hg.inodeBitmap_table (by omega)]
    exact hn.1
  · rw [iMode_eq h.frame hshape (h.disjoint_field hr₁ hn₁ hn₂ (by decide) (.inl hne))]
    exact hn.2

end

section

variable (hc : Consistent img) (hentry : PathEntry img path₁ p pos) (hnew : NewPath img path₂ d)
include hc hentry hnew

/-- An entry added for a regular file without permissions adds only a name. -/
theorem LinkTried.onlyAddsName {new : ℕ}
    (h : LinkTried t img img' d b (deInode img pos) (basename path₂))
    (hadd : Added img img' b as q new bs ⟨deInode img pos, ext2FtRegFile, basename path₂⟩)
    (hmode : iMode img (deInode img pos) = ext2SIfreg) (htype : fileType img pos = ext2FtRegFile)
    (hlinks : iLinksCount img (deInode img pos) < 65535) :
    OnlyAddsName img img' path₂ pos d := by
  have hg := hc.sound.geometry
  have hinodes := hg.inodes
  have hblocks := hg.blocks
  obtain ⟨hr₁, hr₂⟩ := hc.range hentry
  have hshape := h.shape hc hr₁ hr₂
  have haddr := hshape.inodeAddr_eq
  obtain ⟨cs, ds, hbefore, hafter⟩ := h.inserted hc hr₁ hr₂ hnew.directory hadd
  have hfree := hnew.free
  rw [lookup_eq, if_pos hnew.directory, Option.map_eq_none_iff, hbefore, List.find?_append,
    Option.or_eq_none_iff] at hfree
  have hdir : ∀ {n}, Ext2.isDirectory img n = true → Ext2.isDirectory img' n = true := fun hn =>
    h.isDirectory hc hr₁ hr₂ hmode hn
  have hlook : ∀ n name m, lookup img n name = some m → lookup img' n name = some m := by
    intro n name m hlookup
    have hn := (lookup_some hlookup).1
    by_cases hnd : n = d
    · have hname : (basename path₂ == name) = false := by
        rw [beq_eq_false_iff_ne]
        rintro rfl
        rw [hnd, hnew.free] at hlookup
        cases hlookup
      rw [lookup_eq, if_pos hn, hnd, hbefore, List.find?_append] at hlookup
      rw [lookup_eq, if_pos (hdir hn), hnd, hafter, List.find?_append, List.find?_cons, hname]
      exact hlookup
    · rw [lookup_eq, if_pos hn] at hlookup
      rw [lookup_eq, if_pos (hdir hn), h.others hc hr₁ hr₂ hn hnd]
      exact hlookup
  have hfield : ∀ {n} off len, 1 ≤ n → n ≤ sInodesCount img → off + len ≤ 128 →
      (n ≠ deInode img pos ∨ 2 ≤ off ∧ off + len ≤ 26 ∨ 28 ≤ off) →
      Agree img img' (inodeAddr img n + off) (inodeAddr img n + off + len) := by
    intro n off len hn₁ hn₂ hlen hoff
    exact h.frame.agree fun i hi hlt => Set.disjoint_left.1
      (h.disjoint_field hr₁ hn₁ hn₂ hlen hoff) (Set.mem_Ico.2 ⟨hi, hlt⟩)
  refine ⟨?_, ⟨cs, new, ds, hbefore, by rw [htype]; exact hafter⟩,
    fun n hn hnd => h.others hc hr₁ hr₂ hn hnd, ?_,
    ⟨?_, hfield 28 100 hr₁ hr₂ le_rfl (.inr (.inr le_rfl))⟩,
    fun n hn₁ hn₂ hne => hfield 0 128 hn₁ hn₂ le_rfl (.inl hne), fun k hk => ?_, fun k hk => ?_⟩
  · rw [hnew.walk_append, walk_of_lookup hlook hnew.parent, Option.bind_some, lookup_eq,
      if_pos (hdir hnew.directory), hafter, List.find?_append, hfree.1, Option.none_or,
      List.find?_cons_of_pos (by simp)]
    rfl
  · rw [h.links, Nat.mod_eq_of_lt (by omega)]
  · -- the mode is set to what it was
    have hstart : Agree img img' (inodeAddr img (deInode img pos))
        (inodeAddr img (deInode img pos) + 2) := by
      have hload : iMode img (deInode img pos) = iMode img' (deInode img pos) :=
        hmode.trans h.mode.symm
      rw [iMode, iMode, haddr] at hload
      exact agree_of_load hload
    have hrest := hfield 2 24 hr₁ hr₂ (by decide) (.inr (.inl (by decide)))
    intro i hi hlt
    by_cases hi₂ : i < inodeAddr img (deInode img pos) + 2
    · exact hstart i hi hi₂
    · exact hrest i (by omega) (by omega)
  · exact h.bit_eq hr₁ hr₂ h.data.inodeBitmap.symm hg.inodeBitmap_table (by omega)
  · exact h.bit_eq hr₁ hr₂ h.data.blockBitmap.symm hg.blockBitmap_table (by omega)

omit hentry in
/-- What is added where there is no room, for another inode or to another directory is no name for
what the entry at `pos` names. -/
theorem LinkTried.found {d' : ℕ} (hlink : LinkTried t img img' d' b r name)
    (hr₁ : 1 ≤ r) (hr₂ : r ≤ sInodesCount img) (hpos : 1 ≤ deInode img pos)
    (hpos' : deInode img pos ≤ sInodesCount img) (h : OnlyAddsName img img' path₂ pos d) :
    r = deInode img pos ∧ d' = d ∧ HasRoom t img d' name ext2FtRegFile ∧
      iMode img r = ext2SIfreg ∧ iLinksCount img r < 65535 ∧
      (name = basename path₂ → fileType img pos = ext2FtRegFile) := by
  have hshape := hlink.shape hc hr₁ hr₂
  have hr : r = deInode img pos := by
    by_contra hne
    have hkept : iLinksCount img' (deInode img pos) = iLinksCount img (deInode img pos) :=
      iLinksCount_eq hlink.frame hshape
        (hlink.disjoint_field hr₁ hpos hpos' (by decide) (.inl (Ne.symm hne)))
    have hgrown := h.links
    omega
  obtain ⟨cs, new', ds, hbefore, hafter⟩ := h.entry
  have hchanged : liveEntries img' d ≠ liveEntries img d := by
    intro heq
    have hlen := congrArg List.length heq
    rw [hafter, hbefore, List.length_append, List.length_append, List.length_cons] at hlen
    omega
  have hd : d' = d := by
    by_contra hne
    exact hchanged (hlink.others hc hr₁ hr₂ hnew.directory (Ne.symm hne))
  subst hd
  rcases hlink.entry with ⟨-, hag⟩ | ⟨hroom, as, q, new, bs, hadd⟩
  · exact absurd (hlink.unchanged hc hr₁ hr₂ hnew.directory hag) hchanged
  · have hmode : iMode img r = ext2SIfreg := by
      have hload := load_congr (h.fields.1.mono le_rfl (show _ + 2 ≤ _ + 26 by omega))
      rw [← hr] at hload
      have hset := hlink.mode
      rw [iMode, hshape.inodeAddr_eq] at hset
      exact hload.trans hset
    refine ⟨hr, rfl, hroom, hmode, ?_, fun hname => ?_⟩
    · have hgrown := h.links
      have hcount : iLinksCount img r < 65536 := load_lt _ _ _
      rw [← hr, hlink.links] at hgrown
      omega
    · -- the new entry is none of the old ones, which have other names
      obtain ⟨cs', ds', -, hafter'⟩ := hlink.inserted hc hr₁ hr₂ hnew.directory hadd
      have hmem : (new, (⟨r, ext2FtRegFile, name⟩ : DirEntry)) ∈ liveEntries img' d' := by
        rw [hafter']
        exact List.mem_append_right _ List.mem_cons_self
      rw [hafter, List.mem_append, List.mem_cons, or_left_comm, ← List.mem_append,
        ← hbefore] at hmem
      rcases hmem with heq | hold
      · simp only [Prod.mk.injEq, DirEntry.mk.injEq] at heq
        exact heq.2.2.1.symm
      · have hfree := hnew.free
        rw [lookup_eq, if_pos hnew.directory, Option.map_eq_none_iff] at hfree
        exact absurd (by simpa using hname) (List.find?_eq_none.1 hfree _ hold)

end

theorem addHardLink_isSome (h : Sound img) (hinit : init img = some t) (hd : d ≠ 0) (hr : r ≠ 0)
    (hroom : HasRoom t img d name ext2FtRegFile) : (addHardLink t img d r name).isSome = true := by
  obtain ⟨b, hpos, -⟩ := hroom
  obtain ⟨b', hb, hreach, heq⟩ := h.findDirBlockPos hinit hd hpos
  rw [heq] at hpos
  unfold addHardLink
  rw [createLink_eq hpos ((h.dirs d hreach).blocks b' hb).tiles]
  simp only [allocate_file_eq, if_neg hr]
  rfl

/-- **When a hard link only adds a name.** -/
theorem hardLink_iff (hc : Consistent img) (hentry : PathEntry img path₁ p pos)
    (hnew : NewPath img path₂ d) :
    (∃ o, ln false path₁ path₂ img = some o ∧ OnlyAddsName img o.img path₂ pos d) ↔
      Linkable img path₁ path₂ pos d := by
  have hwf := hc.intact.wellFormed
  obtain ⟨hpos, hpos'⟩ := hc.range hentry
  have hd : d ≠ 0 := by
    rintro rfl
    have hdir := hnew.directory
    rw [isDirectory_zero] at hdir
    cases hdir
  constructor
  · rintro ⟨o, hrun, h⟩
    rcases Checked.andThen_some hrun with heq | ⟨⟨t, d', r, name⟩, hchecks, hgo⟩
    · have hresolves := h.resolves
      rw [heq, hnew.walk] at hresolves
      cases hresolves
    · obtain ⟨hinit, hne₁, hne₂, hlen₁, hlen₂, hsource, hr, htarget, ⟨q, hfound, htype⟩, hparent,
        hd', rfl⟩ := lnChecks_iff.1 hchecks
      obtain ⟨im, hadd, rfl⟩ := Option.map_eq_some_iff.1 hgo
      have hr₁ : 1 ≤ r := Nat.one_le_iff_ne_zero.2 hr
      have hr₂ := hc.intact.traverse_le hinit hne₁ hsource hr
      obtain ⟨b, hlink⟩ := addHardLink_added hc.sound hinit hd' (hlen₂ _ (basename_mem hne₂)) hr₁
        hr₂ hadd
      obtain ⟨rfl, rfl, hroom, hmode, hlinks, hfileType⟩ :=
        hlink.found hc hnew hr₁ hr₂ hpos hpos' h
      rw [traversePath_eq hwf hinit hne₁] at hsource
      rw [traversePath_eq hwf hinit hne₂] at htarget
      rw [lnParent_eq hwf hinit] at hparent
      rw [hc.intact.findDirEntry_eq hinit] at hfound
      refine ⟨fun w hw => ?_, ?_, ?_, Option.some.inj hparent,
        ⟨q, Option.some.inj hfound, htype⟩, ⟨t, hinit, hroom⟩, hmode, hfileType rfl, hlinks⟩
      · rcases List.mem_append.1 hw with hw | hw
        · exact hlen₁ w hw
        · exact hlen₂ w hw
      · rw [straight_iff, hentry.walk, Option.getD_some]
        exact Option.some.inj hsource
      · rw [straight_iff, hnew.walk, Option.getD_none]
        exact Option.some.inj htarget
  · intro h
    obtain ⟨t, hinit, hroom⟩ := h.room
    obtain ⟨q, hfirst, htype⟩ := h.first
    have hsource := h.source
    rw [straight_iff, hentry.walk, Option.getD_some] at hsource
    have htarget := h.target
    rw [straight_iff, hnew.walk, Option.getD_none] at htarget
    have hchecks : lnChecks path₁ path₂ img =
        some (.ok (t, d, deInode img pos, basename path₂)) := by
      refine lnChecks_iff.2 ⟨hinit, hentry.nonempty, hnew.nonempty,
        fun w hw => h.names w (List.mem_append_left _ hw),
        fun w hw => h.names w (List.mem_append_right _ hw), ?_, by omega, ?_,
        ⟨q, ?_, htype⟩, ?_, hd, rfl⟩
      · rw [traversePath_eq hwf hinit hentry.nonempty, hsource]
      · rw [traversePath_eq hwf hinit hnew.nonempty, htarget]
      · rw [hc.intact.findDirEntry_eq hinit, hfirst]
      · rw [lnParent_eq hwf hinit, h.parent]
    obtain ⟨im, hadd⟩ := Option.isSome_iff_exists.1
      (addHardLink_isSome hc.sound hinit hd (show deInode img pos ≠ 0 by omega) hroom)
    obtain ⟨b, hlink⟩ := addHardLink_added hc.sound hinit hd
      (h.names _ (List.mem_append_right _ (basename_mem hnew.nonempty))) hpos hpos' hadd
    rcases hlink.entry with ⟨hno, -⟩ | ⟨-, as, q, new, bs, hadded⟩
    · exact absurd hroom hno
    · refine ⟨⟨enoent, "", im⟩, ?_,
        hlink.onlyAddsName hc hentry hnew hadded h.mode h.type h.links⟩
      rw [ln, hchecks]
      show (addHardLink t img d (deInode img pos) (basename path₂)).map _ = _
      rw [hadd]
      rfl

theorem exImage_pathEntry : PathEntry exImage [47, 102] 2 9252 :=
  ⟨by decide, by decide +kernel, by decide +kernel, by decide +kernel⟩

theorem exImage_newPath : NewPath exImage [47, 103] 2 :=
  ⟨by decide, by decide +kernel, by decide +kernel, by decide +kernel⟩

/-- The mode of `/f` has the permissions that `ext2_ln` takes away. -/
theorem hardLink_iff_g :
    ¬ ∃ o, ln false [47, 102] [47, 103] exImage = some o ∧
      OnlyAddsName exImage o.img [47, 103] 9252 2 := by
  intro h
  have hmode : iMode exImage (deInode exImage 9252) ≠ ext2SIfreg := by decide +kernel
  exact hmode ((hardLink_iff exImage_consistent exImage_pathEntry exImage_newPath).1 h).mode

/-- `ext2_ln /f /g` takes the permissions of `/f` away. -/
theorem hardLink_sets_mode : Consistent exImage ∧ PathEntry exImage [47, 102] 2 9252 ∧
    IsFile exImage (deInode exImage 9252) ∧ NewPath exImage [47, 103] 2 ∧
    ∃ o, ln false [47, 102] [47, 103] exImage = some o ∧
      walk o.img ext2RootIno (tokens [47, 103]) = some 15 ∧
      iMode exImage 15 = 0x81A4 ∧ iMode o.img 15 = 0x8000 ∧
      ¬ OnlyAddsName exImage o.img [47, 103] 9252 2 := by
  have hrun : (ln false [47, 102] [47, 103] exImage).map (fun o =>
      (walk o.img ext2RootIno (tokens [47, 103]), iMode o.img 15, inodeAddr o.img 15)) =
      some (some 15, 0x8000, inodeAddr exImage 15) := by decide +kernel
  obtain ⟨o, ho, hfacts⟩ := Option.map_eq_some_iff.1 hrun
  simp only [Prod.mk.injEq] at hfacts
  obtain ⟨hwalk, hmode, haddr⟩ := hfacts
  have hbefore : iMode exImage 15 = 0x81A4 := by decide +kernel
  refine ⟨exImage_consistent, exImage_pathEntry, by decide +kernel, exImage_newPath, o, ho, hwalk,
    hbefore, hmode, fun h => ?_⟩
  have hino : deInode exImage 9252 = 15 := by decide +kernel
  have hstart := h.fields.1
  rw [hino] at hstart
  have hload := load_congr (hstart.mono le_rfl (show _ + 2 ≤ _ + 26 by omega))
  rw [iMode, haddr, ← hload, ← iMode, hbefore] at hmode
  exact absurd hmode (by decide)

end Cscc69.Ext2
