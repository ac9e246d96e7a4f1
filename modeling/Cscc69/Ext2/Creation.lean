import Cscc69.Ext2.Operations
import Cscc69.Ext2.Room

/-!
# What the tools create

A new directory should be counted: by its parent's links and by the group's number of directories.
`ext2_mkdir` never changes the latter (`mkdir_improper`). A new symbolic link should hold the path
of the file that it stands for. `ext2_ln -s` writes its own path into it (`symlink_wrong_path`).
-/

namespace Cscc69.Ext2

open Bytes Records Naming

variable {img im img' : Image} {n m b d k x q r : ℕ} {name path path₁ path₂ : Name} {t : Tables}

/-! ## Consistent images -/

/-- A sound image with intact directories, whose entries name inodes in use. -/
structure Consistent (img : Image) : Prop where
  sound : Sound img
  intact : Intact img
  used : ∀ q ∈ (space img).entries, inUse img (deInode img q) = true

/-- An inode that `find_free_inode` finds was not in use. -/
theorem findFreeInode_fresh (hg : Geometry img) (hfree : (findFreeInode img).1 ≠ 0) :
    inUse img (findFreeInode img).1 = false := by
  rw [Bool.eq_false_iff, ne_eq, inUse_iff]
  rintro ⟨-, -, hbit⟩
  rw [(findFreeInode_marks hg).1.fresh hfree] at hbit
  cases hbit

/-- A free inode has no name. -/
theorem Consistent.unnamed (h : Consistent img) : Unnamed img (findFreeInode img).1 := by
  intro q hq heq
  by_cases hfree : (findFreeInode img).1 = 0
  · obtain ⟨-, -, -, -, -, hlive⟩ := mem_entries.1 hq
    exact deInode_ne_zero hlive (heq.trans hfree)
  · have hused := h.used q hq
    rw [heq, findFreeInode_fresh h.sound.geometry hfree] at hused
    cases hused

/-! ## Directories -/

/-- `path` is a new, empty directory, inode `n` with block `x`, in directory `d`. -/
structure ProperDir (img img' : Image) (path : Name) (d n x : ℕ) : Prop where
  parent : walk img ext2RootIno (tokens path).dropLast = some d
  fresh : inUse img n = false
  mode : modeType (iMode img' n) = ext2SIfdir
  links : iLinksCount img' n = 2
  size : iSize img' n = ext2BlockSize
  spare : 1 ≤ x ∧ marked img x = false ∧ marked img' x = true
  block : ∀ k < 15, iBlock img' n k = if k = 0 then x else 0
  tiles : BlockTiles img' x
  entries : (blockEntries img' x).map (entryAt img') =
    [⟨n, ext2FtDir, [dot]⟩, ⟨d, ext2FtDir, [dot, dot]⟩]
  parentLinks : iLinksCount img' d = iLinksCount img d + 1
  usedDirs : bgUsedDirsCount img' = bgUsedDirsCount img + 1
  resolves : ∃ t, init img' = some t ∧
    traversePath t img' (tokens path) (basename path) = some n
  inodes : ∀ m, 1 ≤ m → m ≤ sInodesCount img → m ≠ n →
    Agree img img' (inodeAddr img m) (inodeAddr img m + 26) ∧
    (m ≠ d → iLinksCount img' m = iLinksCount img m) ∧
    Agree img img' (inodeAddr img m + 28) (inodeAddr img m + 128)
  data : ∀ k ≤ sBlocksCount img, IsData img k → marked img k = true → k ∉ blockList img d →
    Agree img img' (k * ext2BlockSize) (k * ext2BlockSize + ext2BlockSize)

/-- The number of directories in the group descriptor. -/
def usedDirsBytes : Set ℕ := Set.Ico 2064 2066

theorem disjoint_usedDirs_blockBytes (hb : b ≠ 2) : Disjoint usedDirsBytes (blockBytes b) := by
  rw [Set.disjoint_left]
  simp only [usedDirsBytes, blockBytes, ext2BlockSize, Set.mem_Ico]
  omega

theorem disjoint_usedDirs_freeCounts : Disjoint usedDirsBytes freeCounts := by
  rw [Set.disjoint_left]
  simp only [usedDirsBytes, freeCounts, Set.mem_Ico]
  omega

theorem Site.disjoint_usedDirs (hs : Site img d b n) :
    Disjoint usedDirsBytes (toolBytes img b n d) := by
  have hg := hs.sound.geometry
  have hdata := hs.data.three_le
  have hgi := hg.inodeBitmap
  have hgb := hg.blockBitmap
  have hinode : ∀ {m off len}, 1 ≤ m → Disjoint usedDirsBytes (inodeField img m off len) := by
    intro m off len hm
    have htable := hg.table
    rw [Set.disjoint_left]
    simp only [usedDirsBytes, inodeField, inodeAddr_def, ext2BlockSize, Set.mem_Ico]
    omega
  refine disjoint_toolBytes (disjoint_usedDirs_blockBytes (by omega)) (hinode hs.one_le)
    (hinode (hs.sound.range hs.dir).1) (disjoint_usedDirs_blockBytes (by omega))
    (disjoint_usedDirs_blockBytes (by omega)) disjoint_usedDirs_freeCounts fun x hx => ?_
  refine disjoint_usedDirs_blockBytes ?_
  rcases hs.sound.spare hx with rfl | hx
  · decide
  · have hthree := hx.three_le
    omega

theorem usedDirs_eq {P : Set ℕ} (hf : Frame P img img') (hP : Disjoint usedDirsBytes P) :
    bgUsedDirsCount img' = bgUsedDirsCount img :=
  hf.load_eq fun _ hi hlt => Set.disjoint_left.1 hP (Set.mem_Ico.2 ⟨hi, hlt⟩)

/-- No run of `ext2_mkdir` changes the number of directories. -/
theorem mkdir_usedDirs (h : Consistent img) {o : Outcome} (hrun : mkdir path img = some o) :
    bgUsedDirsCount o.img = bgUsedDirsCount img := by
  rcases mkdir_cases hrun with heq | ⟨t, d, name, hchecks, hadd⟩
  · rw [heq]
  · obtain ⟨hinit, hd, hname⟩ := mkdirChecks_ok hchecks
    rcases addDir_cases h.sound hinit hd hname h.unnamed hadd with
      ⟨-, heq, -⟩ | ⟨-, b, new, hdir⟩
    · have hbitmap := h.sound.geometry.inodeBitmap
      rw [heq]
      exact usedDirs_eq (findFreeInode_marks h.sound.geometry).1.frame (Set.disjoint_union_right.2
        ⟨disjoint_usedDirs_blockBytes (by omega), disjoint_usedDirs_freeCounts⟩)
    · exact usedDirs_eq hdir.edited.frame hdir.site.disjoint_usedDirs

/-- **`ext2_mkdir` builds no proper directory.** -/
theorem mkdir_improper (h : Consistent img) (path : Name) :
    ¬ ∃ o d n x, mkdir path img = some o ∧ ProperDir img o.img path d n x := by
  rintro ⟨o, d, n, x, hrun, hdir⟩
  have hcount := hdir.usedDirs
  rw [mkdir_usedDirs h hrun] at hcount
  omega

theorem exImage_consistent : Consistent exImage := by
  refine ⟨exImage_sound, exImage_intact, fun q hq => ?_⟩
  have hall : ∀ q ∈ exEntries, inUse exImage (deInode exImage q) = true := by decide +kernel
  exact hall q (exImage_entries.1 hq)

theorem mkdir_improper_g :
    ¬ ∃ o d n x, mkdir [47, 103] exImage = some o ∧ ProperDir exImage o.img [47, 103] d n x :=
  mkdir_improper exImage_consistent [47, 103]

/-- The directory `/g` is made, and the number of directories stays. -/
theorem mkdir_not_counted : Consistent exImage ∧ ∃ o, mkdir [47, 103] exImage = some o ∧
    walk o.img ext2RootIno (tokens [47, 103]) = some 16 ∧ isDirectory o.img 16 = true ∧
    ∀ d n x, ¬ ProperDir exImage o.img [47, 103] d n x := by
  have hrun : (mkdir [47, 103] exImage).map (fun o =>
      (walk o.img ext2RootIno (tokens [47, 103]), isDirectory o.img 16,
        bgUsedDirsCount o.img)) = some (some 16, true, bgUsedDirsCount exImage) := by
    decide +kernel
  obtain ⟨o, ho, hfacts⟩ := Option.map_eq_some_iff.1 hrun
  simp only [Prod.mk.injEq] at hfacts
  obtain ⟨hwalk, hdir, hcount⟩ := hfacts
  refine ⟨exImage_consistent, o, ho, hwalk, hdir, fun d n x h => ?_⟩
  have hgrown := h.usedDirs
  omega

/-! ## Symbolic links -/

/-- `path₂` leads to a new symbolic link, inode `n`, that holds `path₁`; what `path₁` leads to is as
it was. -/
structure PointsTo (img img' : Image) (path₁ path₂ : Name) (n : ℕ) : Prop where
  resolves : walk img' ext2RootIno (tokens path₂) = some n
  fresh : inUse img n = false
  mode : modeType (iMode img' n) = ext2SIflnk
  links : iLinksCount img' n = 1
  size : iSize img' n = path₁.length
  content : Bytes.read img' (iBlock img' n 0 * ext2BlockSize) (iSize img' n) = path₁
  source : ∀ p pos, PathEntry img path₁ p pos → PathEntry img' path₁ p pos ∧
    entryAt img' pos = entryAt img pos ∧
    Agree img img' (inodeAddr img (deInode img pos)) (inodeAddr img (deInode img pos) + 128)

/-- The entry that `create_link` cuts has room for the new one. -/
def LinkRoom (t : Tables) (img : Image) (d : ℕ) (name : Name) : Prop :=
  ∃ b q, findDirBlockPos t img d = some (b * ext2BlockSize) ∧
    (blockEntries img b).find? (hasRoom img name ext2FtSymlink) = some q ∧
    dirSize img q + 12 ≤ recLen img q ∧ LinkFits img name q

/-- No mark goes to the first byte of a block. -/
theorem findFreeInode_first (hg : Geometry img) (k : ℕ) :
    (findFreeInode img).2 (k * ext2BlockSize) = img (k * ext2BlockSize) := by
  have hinodes := hg.inodes
  unfold findFreeInode
  split
  · rfl
  · rename_i i hfind
    have hlt := List.mem_range.1 (List.mem_of_find?_eq_some hfind)
    have hge : 10 < i := by
      have hfound := List.find?_some hfind
      rw [Bool.and_eq_true, decide_eq_true_eq] at hfound
      exact hfound.2
    have hcount : ∀ (m : Image) v, setBgFreeInodesCount m v (k * ext2BlockSize) =
        m (k * ext2BlockSize) := by
      intro m v
      unfold setBgFreeInodesCount store ext2BlockSize
      rw [if_neg (by omega)]
    simp only [hcount]
    unfold setBit ext2BlockSize
    rw [Function.update_of_ne (by omega)]

theorem LinkFits.le (h : LinkFits img name q) :
    dirSize img q + (8 + name.length) ≤ recLen img q := by
  rcases h with hlt | ⟨heq, -⟩
  · omega
  · omega

/-- The entry fits still when `find_free_inode` has marked an inode: the byte behind it is in the
block, or the first one of the next block. -/
theorem LinkFits.findFreeInode (h : LinkFits img name q) (hg : Geometry img) (hok : BlockOk img b)
    (hag : Agree img (findFreeInode img).2 (b * ext2BlockSize) (b * ext2BlockSize + ext2BlockSize))
    (hq : q ∈ blockEntries img b) : dirSize img q + (8 + name.length) < recLen img q ∨
      (findFreeInode img).2 (q + recLen img q) = 0 := by
  have hsize : ext2BlockSize = 1024 := rfl
  have hend := hok.mem hq
  rcases h with hlt | ⟨-, hzero⟩
  · exact .inl hlt
  · refine .inr ?_
    by_cases hlast : q + recLen img q < b * ext2BlockSize + ext2BlockSize
    · rw [← hag _ (by omega) hlast, hzero]
    · have hnext : q + recLen img q = (b + 1) * ext2BlockSize := by
        rw [hsize] at hend hlast ⊢
        omega
      rw [hnext] at hzero ⊢
      rw [findFreeInode_first hg, hzero]

/-- **What `create_link` does for a symbolic link** that has room. -/
theorem createLink_link (h : Sound img) (hinit : init img = some t) (hd : d ≠ 0)
    (hname : name.length < 255) (hn : n < 2 ^ 32) (hroom : LinkRoom t img d name) :
    ∃ b ∈ blockList img d, (space img).Reach d ∧ ∃ im as q new bs,
      createLink t (findFreeInode img).2 d n name ext2FtSymlink = some (true, im) ∧
      Linked img (findFreeInode img).2 im b n ext2FtSymlink name as q new bs := by
  have hsize : ext2BlockSize = 1024 := rfl
  obtain ⟨b, q, hpos, hfind, hlong, hfits⟩ := hroom
  obtain ⟨b', hb, hreach, heq⟩ := h.findDirBlockPos hinit hd hpos
  rw [hsize] at heq
  obtain rfl : b' = b := by omega
  have hdir := h.dirs d hreach
  have hok := hdir.blocks b' hb
  have hsame := findFreeInode_sameData h.geometry
  have hag := hsame b' (hdir.data b' hb).1
  obtain ⟨hok', hlist, -, -⟩ := hok.congr hag
  rw [← findDirBlockPos_congr h hinit hsame] at hpos
  have hfind' : (blockEntries (findFreeInode img).2 b').find?
      (hasRoom (findFreeInode img).2 name ext2FtSymlink) = some q := by
    rw [hlist, ← hfind]
    exact List.find?_congr fun r hr => (hasRoom_congr hok hag hr).2.2
  have hmem := List.mem_of_find?_eq_some hfind
  obtain ⟨hlen, hdirSize, -⟩ : _ ∧ _ ∧ hasRoom _ name ext2FtSymlink _ = _ :=
    hasRoom_congr hok hag hmem
  have hnul := hfits.findFreeInode h.geometry hok hag hmem
  have hle := hfits.le
  obtain ⟨as, bs, hsplit⟩ := List.append_of_mem (List.mem_of_find?_eq_some hfind')
  rw [← hlen, ← hdirSize] at hle hlong hnul
  have hcut := cutEntry_cut hok'.tiles hok'.fits hsplit hle hnul (show name.length < 256 by omega)
    hn (show ext2FtSymlink < 256 by decide)
  obtain ⟨hadded, hframe⟩ := hcut.added hok' hsplit hlong hle
  exact ⟨b', hb, hreach, _, as, q, _, bs, by rw [createLink_eq hpos hok'.tiles, hfind'],
    hframe, hadded.of_agree hok hag⟩

/-- The end of `ext2_ln -s` writes the path that it is given into the new inode. -/
theorem addSymlink_content (h : Consistent img) (hinit : init img = some t) (hd : d ≠ 0)
    (hname : name.length < 255) (hroom : LinkRoom t img d name)
    (hlen : path.length < ext2BlockSize) (hadd : addSymlink t img d name path = some img') :
    (∀ names m, walk img' ext2RootIno names = some m → names ≠ [] → inUse img m = false →
      m = (findFreeInode img).1) ∧
    iSize img' (findFreeInode img).1 = path.length ∧
    Bytes.read img' (iBlock img' (findFreeInode img).1 0 * ext2BlockSize) path.length = path := by
  have hsound := h.sound
  have hle := (findFreeInode_marks hsound.geometry).1.range
  have hinodes := hsound.geometry.inodes
  obtain ⟨b, hb, hreach, im, as, q, new, bs, hlink, hl⟩ :=
    createLink_link hsound hinit hd hname (show (findFreeInode img).1 < 2 ^ 32 by omega) hroom
  unfold addSymlink at hadd
  simp only [hlink] at hadd
  change allocate im (findFreeInode img).1 d ext2SIflnk path = some img' at hadd
  have hfree : (findFreeInode img).1 ≠ 0 := by
    intro hzero
    rw [allocate, if_pos hzero] at hadd
    cases hadd
  have hs := hsound.site hfree h.unnamed hreach hb
  obtain ⟨x, hnew⟩ := (hl.stage hs).1.linkPath hs hlen hadd
  have hfile : ¬ (space img').isDir (findFreeInode img).1 := by
    show ¬ modeType (iMode img' _) = ext2SIfdir
    rw [hnew.mode]
    decide
  have hadded := hl.added.congr hnew.block
  have hnamed : ∀ r ∈ ({new} : Set ℕ), deInode img' r = (findFreeInode img).1 := by
    intro r hr
    rw [Set.mem_singleton_iff.1 hr]
    exact congrArg DirEntry.inode hadded.entry
  have hedit : Edited img img' d b (findFreeInode img).1 ∅ {new} :=
    hnew.stage.added hs hadded rfl fun _ _ _ => hfile
  refine ⟨fun names m hwalk hne hfresh => ?_, hnew.size, by rw [hnew.first]; exact hnew.content⟩
  obtain ⟨pos, hpos, hino⟩ := walk_entry hne .root hwalk
  rcases hedit.changes.mem_entries (Edited.come_file hfile hnamed) hpos with ⟨hold, -, heq⟩ | hcome
  · have heq : deInode img' pos = deInode img pos := heq
    have hused := h.used pos hold
    rw [← heq, hino, hfresh] at hused
    cases hused
  · rw [← hino]
    exact hnamed pos hcome

/-- **`ext2_ln -s` makes no symbolic link to its first path.** It writes its second path into the
new block. Of one that does not fit there, with 1024 bytes or more, nothing is said. -/
theorem symlink_wrong_path (h : Consistent img) (hlen : path₂.length < ext2BlockSize)
    (hroom : ∀ t d r name, lnChecks path₁ path₂ img = some (.ok (t, d, r, name)) →
      LinkRoom t img d name)
    (hsource : walk img ext2RootIno (tokens path₁) = some r)
    (hnew : walk img ext2RootIno (tokens path₂) = none) :
    ¬ ∃ o n, ln true path₁ path₂ img = some o ∧ PointsTo img o.img path₁ path₂ n := by
  rintro ⟨o, n, hrun, hpoints⟩
  have hresolves := hpoints.resolves
  rcases Checked.andThen_some hrun with heq | ⟨⟨t, d, r', name⟩, hchecks, hgo⟩
  · rw [heq, hnew] at hresolves
    cases hresolves
  · obtain ⟨hinit, hd, hname, -⟩ := lnChecks_ok hchecks
    obtain ⟨im, hadd, rfl⟩ := Option.map_eq_some_iff.1 hgo
    have hne : tokens path₂ ≠ [] := by
      intro hnil
      rw [hnil] at hnew
      cases hnew
    obtain ⟨honly, hsize, hcontent⟩ := addSymlink_content h hinit hd hname
      (hroom t d r' name hchecks) hlen hadd
    obtain rfl := honly _ n hresolves hne hpoints.fresh
    -- the link holds the second path, which leads nowhere before
    have hread := hpoints.content
    have hsize' : iSize im (findFreeInode img).1 = path₂.length := hsize
    change Bytes.read im (iBlock im _ 0 * ext2BlockSize) (iSize im _) = path₁ at hread
    rw [hsize', hcontent] at hread
    rw [hread, hsource] at hnew
    cases hnew

theorem exImage_linkRoom : ∀ t d r name,
    lnChecks [47, 102] [47, 103] exImage = some (.ok (t, d, r, name)) →
      LinkRoom t exImage d name := by
  intro t d r name hchecks
  rw [exImage_lnChecks] at hchecks
  cases hchecks
  exact ⟨9, 9252, by decide +kernel, by decide +kernel, by decide +kernel, by decide +kernel⟩

theorem symlink_wrong_path_g : ¬ ∃ o n, ln true [47, 102] [47, 103] exImage = some o ∧
    PointsTo exImage o.img [47, 102] [47, 103] n :=
  symlink_wrong_path (r := 15) exImage_consistent (by decide) exImage_linkRoom (by decide +kernel)
    (by decide +kernel)

/-- `ext2_ln -s /f /g` makes a link of `/g` to itself, without a count. -/
theorem symlink_points_to_itself : Consistent exImage ∧
    walk exImage ext2RootIno (tokens [47, 102]) = some 15 ∧
    walk exImage ext2RootIno (tokens [47, 103]) = none ∧
    ∃ o, ln true [47, 102] [47, 103] exImage = some o ∧
      walk o.img ext2RootIno (tokens [47, 103]) = some 16 ∧
      modeType (iMode o.img 16) = ext2SIflnk ∧
      Bytes.read o.img (iBlock o.img 16 0 * ext2BlockSize) (iSize o.img 16) = [47, 103] ∧
      ∀ n, ¬ PointsTo exImage o.img [47, 102] [47, 103] n := by
  have hrun : (ln true [47, 102] [47, 103] exImage).map (fun o =>
      (walk o.img ext2RootIno (tokens [47, 103]), modeType (iMode o.img 16),
        Bytes.read o.img (iBlock o.img 16 0 * ext2BlockSize) (iSize o.img 16))) =
      some (some 16, ext2SIflnk, [47, 103]) := by decide +kernel
  obtain ⟨o, ho, hfacts⟩ := Option.map_eq_some_iff.1 hrun
  simp only [Prod.mk.injEq] at hfacts
  obtain ⟨hwalk, hmode, hread⟩ := hfacts
  refine ⟨exImage_consistent, by decide +kernel, by decide +kernel, o, ho, hwalk, hmode, hread,
    fun n hpoints => ?_⟩
  obtain rfl : n = 16 := by
    have hresolves := hpoints.resolves
    rw [hwalk] at hresolves
    exact (Option.some.inj hresolves).symm
  have hcontent := hpoints.content
  rw [hread] at hcontent
  exact absurd hcontent (by decide)

end Cscc69.Ext2
