import Cscc69.Ext2.Copies
import Cscc69.Ext2.HardLinks
import Cscc69.Ext2.LastLink

/-!
# Exit codes

A tool should make the whole of a change and exit with 0, or none of it and exit with another code
(`Tells`). After its checks a tool marks an inode, adds the entry and fills the inode in three
steps, and goes on, or ends, when one of them has failed. `ext2_mkdir` ends with `ENOENT` for any
path of two or more components, and `ext2_ln` always; `ext2_cp` and `ext2_rm` end with 0 whatever
has happened.

So the exit code tells the truth when the checks refuse the command (`Checked.Refuses`). Beyond
that, `ext2_mkdir` must have failed at every step, `ext2_cp` must have copied right, and `ext2_rm`
must have come upon a directory's entry, or have removed the right file and freed all of it.

Main result: `truthful_iff`.
-/

namespace Cscc69.Ext2

open Bytes Records Naming

variable {img im im' img' : Image} {n m b d k p pos x q r : ℕ} {name path path₁ path₂ : Name}
  {t : Tables} {env : Env} {file : Option (List UInt8)} {data : List UInt8} {ss : List Name}
  {e : ℕ × String}

/-! ## The truth -/

/-- A run ends, and its code is 0 with all of the change made, or not 0 with none of it made. -/
def Tells (run : Option Outcome) (img : Image) (made : Image → Prop) : Prop :=
  ∃ o, run = some o ∧ (o.code = 0 ∧ made o.img ∨ o.code ≠ 0 ∧ o.img = img)

/-- The checks come to an exit code. -/
def Checked.Refuses {α : Type} (c : Checked α) : Prop := ∃ e, c = some (.error e)

/-- The rest of a tool tells the truth for whatever the checks have found. -/
theorem tells_andThen {α : Type} {c : Checked α} {go : α → Option Outcome} {made : Image → Prop}
    (hcode : ∀ e, c = some (.error e) → e.1 ≠ 0) : Tells (c.andThen img go) img made ↔
      c.Refuses ∨ ∃ a, c = some (.ok a) ∧ Tells (go a) img made := by
  cases c with
  | none => simp [Tells, Checked.andThen, Checked.Refuses]
  | some c =>
    cases c with
    | error e =>
      refine iff_of_true ⟨⟨e.1, e.2, img⟩, rfl, .inr ⟨hcode e rfl, rfl⟩⟩ (.inl ⟨e, rfl⟩)
    | ok a => simp [Checked.andThen, Checked.Refuses]

/-! ## The changes asked for -/

def MkdirMade (img : Image) (path : Name) (img' : Image) : Prop :=
  ∃ d n x, ProperDir img img' path d n x

/-- The directory at `path₂` has a new entry, with the last name of `path₁`, for a regular file with
one link that reads as `data`. -/
structure FileMade (img img' : Image) (path₁ path₂ : Name) (data : List UInt8) (d n : ℕ) :
    Prop where
  parent : walk img ext2RootIno (tokens path₂) = some d
  directory : isDirectory img d = true
  free : lookup img d (basename path₁) = none
  copied : CopiedFile img img' d n (basename path₁) data
  mode : modeType (iMode img' n) = ext2SIfreg
  links : iLinksCount img' n = 1

def CpMade (img : Image) (file : Option (List UInt8)) (path₁ path₂ : Name) (img' : Image) : Prop :=
  ∃ data d n, file = some data ∧ FileMade img img' path₁ path₂ data d n

/-- A file and a new path. -/
structure LinkPaths (img : Image) (path₁ path₂ : Name) (pos d : ℕ) : Prop where
  source : ∃ p, PathEntry img path₁ p pos
  file : IsFile img (deInode img pos)
  target : NewPath img path₂ d

def LnMade (img : Image) (path₁ path₂ : Name) (img' : Image) : Prop :=
  ∃ pos d, LinkPaths img path₁ path₂ pos d ∧ OnlyAddsName img img' path₂ pos d

def SymlinkMade (img : Image) (path₁ path₂ : Name) (img' : Image) : Prop :=
  ∃ pos d n, LinkPaths img path₁ path₂ pos d ∧ PointsTo img img' path₁ path₂ n

/-- With its last link inode `n` has become free, with its blocks, at the current time. -/
structure Freed (env : Env) (img img' : Image) (n : ℕ) : Prop where
  bits : ∀ i < sInodesCount img, bit img' (bgInodeBitmap img) i =
    (bit img (bgInodeBitmap img) i && !decide (iLinksCount img n = 1 ∧ i = n - 1))
  freeInodes : bgFreeInodesCount img' =
    bgFreeInodesCount img + if iLinksCount img n = 1 then 1 else 0
  time : iLinksCount img n = 1 → iDtime img' n = env.now % 2 ^ 32
  blocks : iLinksCount img n = 1 → ∀ x ∈ fileBlocks img n, x ≤ sBlocksCount img →
    marked img' x = false

/-- The entry of a file at the path has gone, and the file with its last entry. -/
structure Removes (env : Env) (img img' : Image) (path : Name) (p pos : ℕ) : Prop where
  entry : PathEntry img path p pos
  file : IsFile img (deInode img pos)
  unlinks : Unlinks img img' p pos
  freed : Freed env img img' (deInode img pos)

def RmMade (env : Env) (img : Image) (path : Name) (img' : Image) : Prop :=
  ∃ p pos, Removes env img img' path p pos

/-! ## The checks -/

theorem mkdirChecks_code (h : mkdirChecks path img = some (.error e)) : e.1 ≠ 0 := by
  unfold mkdirChecks at h
  simp only at h
  repeat' split at h
  all_goals cases h
  all_goals decide

theorem cpChecks_code (h : cpChecks file path₁ path₂ img = some (.error e)) : e.1 ≠ 0 := by
  unfold cpChecks at h
  simp only at h
  repeat' split at h
  all_goals cases h
  all_goals decide

theorem lnChecks_code (h : lnChecks path₁ path₂ img = some (.error e)) : e.1 ≠ 0 := by
  unfold lnChecks at h
  simp only at h
  repeat' split at h
  all_goals cases h
  all_goals decide

theorem rmChecks_code (h : rmChecks path img = some (.error e)) : e.1 ≠ 0 := by
  unfold rmChecks at h
  simp only at h
  repeat' split at h
  all_goals cases h
  all_goals decide

/-! ## `ext2_mkdir` -/

/-- `find_free_inode` changes the image when it finds one. -/
theorem findFreeInode_ne (hg : Geometry img) (hfree : freeInode img ≠ 0) :
    bit img (bgInodeBitmap img) (freeInode img - 1) = false ∧
      bit (findFreeInode img).2 (bgInodeBitmap img) (freeInode img - 1) = true := by
  have hm := (findFreeInode_marks hg).1
  refine ⟨hm.fresh hfree, ?_⟩
  have heq : freeInode img - 1 + 1 = freeInode img := Nat.succ_pred_eq_of_ne_zero hfree
  rw [hm.bit, show freeInode img - 1 + 1 = (findFreeInode img).1 from heq]
  simp

/-- The block of the parent that `create_link` looks at is there, and has no room. -/
def NoRoom (t : Tables) (img : Image) (d : ℕ) (name : Name) (mode : ℕ) : Prop :=
  findDirBlockPos t img d ≠ none ∧ ¬ HasRoom t img d name mode

/-- The checks let the command through, the path has several components, and there is neither an
inode nor room for an entry. -/
def MkdirFails (path : Name) (img : Image) : Prop :=
  ∃ t d name, mkdirChecks path img = some (.ok (t, d, name)) ∧ countItemInPath path ≠ 1 ∧
    freeInode img = 0 ∧ NoRoom t img d name ext2FtDir

theorem createLink_pos {mode : ℕ} {res : Bool × Image}
    (h : createLink t img d n name mode = some res) : findDirBlockPos t img d ≠ none := by
  unfold createLink at h
  split at h
  · cases h
  · rename_i base hbase
    rw [hbase]
    exact Option.some_ne_none base

/-- `ext2_mkdir` leaves the image as it was when it has neither an inode nor room. -/
theorem addDir_same_iff (h : Consistent img) (hinit : init img = some t) (hd : d ≠ 0)
    (hname : name.length < 255) : addDir t img d name = some img ↔
      freeInode img = 0 ∧ NoRoom t img d name ext2FtDir := by
  have hsound := h.sound
  have hg := hsound.geometry
  have hsame := findFreeInode_sameData hg
  constructor
  · intro hadd
    have hpos : findDirBlockPos t img d ≠ none := by
      unfold addDir at hadd
      dsimp only at hadd
      rw [← findDirBlockPos_congr hsound hinit hsame]
      split at hadd
      · cases hadd
      · rename_i hlink
        exact createLink_pos hlink
      · rename_i hlink
        exact createLink_pos hlink
    rcases addDir_cases hsound hinit hd hname h.unnamed hadd with
      ⟨hno, heq, -⟩ | ⟨-, b, new, hdir⟩
    · refine ⟨?_, hpos, hno⟩
      by_contra hfree
      obtain ⟨hbefore, hafter⟩ := findFreeInode_ne hg hfree
      rw [← heq, hbefore] at hafter
      cases hafter
    · -- the new entry was none of the block before
      exact absurd ((hdir.edited.live new).2 (.inr rfl)).1 (hdir.edited.fresh new rfl)
  · rintro ⟨hfree, hpos, hno⟩
    obtain ⟨base, hbase⟩ := Option.ne_none_iff_exists'.1 hpos
    obtain ⟨b, hb, hreach, rfl⟩ := hsound.findDirBlockPos hinit hd hbase
    have htiles := ((hsound.dirs d hreach).blocks b hb).tiles
    have hlink : createLink t img d 0 name ext2FtDir = some (false, img) := by
      rw [createLink_eq hbase htiles]
      cases hfind : (blockEntries img b).find? (hasRoom img name ext2FtDir) with
      | none => rfl
      | some q =>
        exact absurd ⟨b, hbase, q, List.mem_of_find?_eq_some hfind, List.find?_some hfind⟩ hno
    have hzero : (findFreeInode img).1 = 0 := hfree
    unfold addDir
    dsimp only
    rw [hzero, findFreeInode_zero hzero, hlink]

/-- **`ext2_mkdir`** makes no proper directory, so it has to leave the image alone. -/
theorem mkdir_tells_iff (h : Consistent img) :
    Tells (mkdir path img) img (MkdirMade img path) ↔
      (mkdirChecks path img).Refuses ∨ MkdirFails path img := by
  have himproper : ∀ o, mkdir path img = some o → ¬ MkdirMade img path o.img := by
    rintro o hrun ⟨d, n, x, hdir⟩
    have hcount := hdir.usedDirs
    rw [mkdir_usedDirs h hrun] at hcount
    omega
  rw [mkdir, tells_andThen fun _ => mkdirChecks_code]
  refine or_congr_right ?_
  constructor
  · rintro ⟨⟨t, d, name⟩, hchecks, o, hgo, hcases⟩
    obtain ⟨hinit, hd, hname⟩ := mkdirChecks_ok hchecks
    have hrun : mkdir path img = some o := by
      rw [mkdir, hchecks]
      exact hgo
    obtain ⟨im, hadd, rfl⟩ := Option.map_eq_some_iff.1 hgo
    rcases hcases with ⟨-, hdir⟩ | ⟨hcode, himg⟩
    · exact absurd hdir (himproper _ hrun)
    · split at hcode
      · exact absurd rfl hcode
      · rename_i hcount
        rw [if_neg hcount] at himg
        obtain rfl : im = img := himg
        exact ⟨t, d, name, hchecks, hcount, (addDir_same_iff h hinit hd hname).1 hadd⟩
  · rintro ⟨t, d, name, hchecks, hcount, hsame⟩
    obtain ⟨hinit, hd, hname⟩ := mkdirChecks_ok hchecks
    refine ⟨(t, d, name), hchecks, ⟨enoent, "", img⟩, ?_,
      .inr ⟨show enoent ≠ 0 by decide, rfl⟩⟩
    show (addDir t img d name).map _ = _
    rw [(addDir_same_iff h hinit hd hname).2 hsame, Option.map_some, if_neg hcount]

/-! ## `ext2_ln` -/

/-- The path fits a block, and the entry fits where `create_link` puts it. -/
def LinkInside (path₁ path₂ : Name) (img : Image) : Prop :=
  ∀ t d r name, lnChecks path₁ path₂ img = some (.ok (t, d, r, name)) →
    path₂.length < ext2BlockSize ∧ ∀ b q, findDirBlockPos t img d = some (b * ext2BlockSize) →
      (blockEntries img b).find? (hasRoom img name ext2FtSymlink) = some q → LinkFits img name q

/-- The count of links goes up in any case. -/
theorem addHardLink_ne (h : Consistent img) (hinit : init img = some t) (hd : d ≠ 0)
    (hname : name.length < 255) (hr₁ : 1 ≤ r) (hr₂ : r ≤ sInodesCount img) :
    addHardLink t img d r name ≠ some img := by
  intro hadd
  obtain ⟨b, hlink⟩ := addHardLink_added h.sound hinit hd hname hr₁ hr₂ hadd
  have hlinks := hlink.links
  have hlt : iLinksCount img r < 65536 := load_lt _ _ _
  omega

/-- **`ext2_ln`** exits with `ENOENT` and has changed the image. -/
theorem ln_tells_iff (h : Consistent img) (made : Image → Prop) :
    Tells (ln false path₁ path₂ img) img made ↔ (lnChecks path₁ path₂ img).Refuses := by
  rw [ln, tells_andThen fun _ => lnChecks_code, or_iff_left]
  rintro ⟨⟨t, d, r, name⟩, hchecks, o, hgo, hcases⟩
  obtain ⟨im, hadd, rfl⟩ := Option.map_eq_some_iff.1 hgo
  obtain ⟨hinit, hne₁, hne₂, -, hlen₂, hsource, hr, -, -, -, hd, rfl⟩ := lnChecks_iff.1 hchecks
  rcases hcases with ⟨hcode, -⟩ | ⟨-, himg⟩
  · exact absurd hcode (show enoent ≠ 0 by decide)
  · obtain rfl : im = img := himg
    exact addHardLink_ne h hinit hd (hlen₂ _ (basename_mem hne₂)) (Nat.one_le_iff_ne_zero.2 hr)
      (h.intact.traverse_le hinit hne₁ hsource hr) hadd

/-- The entry of a symbolic link is written into the block of the parent, if anywhere. -/
theorem createLink_inside (h : Sound img) (hinit : init img = some t) (hd : d ≠ 0)
    (hname : name.length < 255) (hn : n < 2 ^ 32)
    (hfits : ∀ b q, findDirBlockPos t img d = some (b * ext2BlockSize) →
      (blockEntries img b).find? (hasRoom img name ext2FtSymlink) = some q → LinkFits img name q)
    {res : Bool × Image}
    (hres : createLink t (findFreeInode img).2 d n name ext2FtSymlink = some res) :
    ∃ b ∈ blockList img d, (space img).Reach d ∧
      Frame (blockBytes b) (findFreeInode img).2 res.2 := by
  have hsame := findFreeInode_sameData h.geometry
  obtain ⟨base, hbase⟩ := Option.ne_none_iff_exists'.1 (createLink_pos hres)
  have hpos := hbase
  rw [findDirBlockPos_congr h hinit hsame] at hpos
  obtain ⟨b, hb, hreach, rfl⟩ := h.findDirBlockPos hinit hd hpos
  have hdir := h.dirs d hreach
  have hok := hdir.blocks b hb
  have hag := hsame b (hdir.data b hb).1
  obtain ⟨hok', hlist, -, -⟩ := hok.congr hag
  refine ⟨b, hb, hreach, ?_⟩
  rw [createLink_eq hbase hok'.tiles, hlist] at hres
  have hfind : (blockEntries img b).find? (hasRoom (findFreeInode img).2 name ext2FtSymlink) =
      (blockEntries img b).find? (hasRoom img name ext2FtSymlink) :=
    List.find?_congr fun r hr => (hasRoom_congr hok hag hr).2.2
  rw [hfind] at hres
  cases hfound : (blockEntries img b).find? (hasRoom img name ext2FtSymlink) with
  | none =>
    rw [hfound] at hres
    obtain rfl := Option.some.inj hres
    exact .refl _ _
  | some q =>
    simp only [hfound, Option.some.injEq] at hres
    have hmem := List.mem_of_find?_eq_some hfound
    have hfit := hfits b q hpos hfound
    have hle := hfit.le
    have hnul := hfit.findFreeInode h.geometry hok hag hmem
    have hend := hok.mem hmem
    obtain ⟨hlen, hdirSize, -⟩ : _ ∧ _ ∧ hasRoom _ name ext2FtSymlink _ = _ :=
      hasRoom_congr hok hag hmem
    rw [← hlen, ← hdirSize] at hle hnul
    have hshort : name.length < 256 := by omega
    have hcut := cutEntry_frame hle hnul hshort hn (show ext2FtSymlink < 256 by decide)
    have hsub : cutBytes (findFreeInode img).2 q (q + dirSize (findFreeInode img).2 q) ⊆
        blockBytes b := by
      intro i hi
      simp only [cutBytes, blockBytes, Set.mem_union, Set.mem_Ico] at hi ⊢
      omega
    rw [← hres]
    dsimp only
    exact hcut.mono hsub

/-- The new inode keeps its mark. -/
theorem addSymlink_ne (h : Consistent img) (hinit : init img = some t) (hd : d ≠ 0)
    (hname : name.length < 255) (hlen : path.length < ext2BlockSize)
    (hfits : ∀ b q, findDirBlockPos t img d = some (b * ext2BlockSize) →
      (blockEntries img b).find? (hasRoom img name ext2FtSymlink) = some q →
        LinkFits img name q) : addSymlink t img d name path ≠ some img := by
  intro hadd
  have hsound := h.sound
  have hg := hsound.geometry
  have hle := (findFreeInode_marks hg).1.range
  have hinodes := hg.inodes
  unfold addSymlink at hadd
  dsimp only at hadd
  split at hadd
  · cases hadd
  · rename_i res im hlink
    obtain ⟨b, hb, hreach, hframe⟩ := createLink_inside hsound hinit hd hname
      (show (findFreeInode img).1 < 2 ^ 32 by omega) hfits hlink
    have hfree : freeInode img ≠ 0 := by
      intro hzero
      rw [allocate, if_pos (show (findFreeInode img).1 = 0 from hzero)] at hadd
      cases hadd
    have hs := hsound.site hfree h.unnamed hreach hb
    have hstage := hs.findFreeInode.1.block hs hframe
    obtain ⟨x, hnew⟩ := hstage.linkPath hs hlen hadd
    obtain ⟨hbefore, hafter⟩ := findFreeInode_ne hg hfree
    have hlt : freeInode img - 1 < sInodesCount img := by
      have hle : freeInode img ≤ sInodesCount img := hle
      omega
    have hkept : bit im (bgInodeBitmap img) (freeInode img - 1) =
        bit (findFreeInode img).2 (bgInodeBitmap img) (freeInode img - 1) :=
      bit_eq hframe (disjoint_blockBytes hs.data.inodeBitmap.symm) (by omega)
    rw [hnew.bits _ hlt, hkept, hafter] at hbefore
    cases hbefore

/-- **`ext2_ln -s`** exits with `ENOENT` too, and has marked an inode. -/
theorem symlink_tells_iff (h : Consistent img) (made : Image → Prop) :
    LinkInside path₁ path₂ img ∧ Tells (ln true path₁ path₂ img) img made ↔
      (lnChecks path₁ path₂ img).Refuses := by
  rw [ln, tells_andThen fun _ => lnChecks_code]
  constructor
  · rintro ⟨hinside, hrefuses | ⟨⟨t, d, r, name⟩, hchecks, o, hgo, hcases⟩⟩
    · exact hrefuses
    · obtain ⟨hlen, hfits⟩ := hinside t d r name hchecks
      obtain ⟨hinit, hd, hname, -⟩ := lnChecks_ok hchecks
      obtain ⟨im, hadd, rfl⟩ := Option.map_eq_some_iff.1 hgo
      rcases hcases with ⟨hcode, -⟩ | ⟨-, himg⟩
      · exact absurd hcode (show enoent ≠ 0 by decide)
      · obtain rfl : im = img := himg
        exact absurd hadd (addSymlink_ne h hinit hd hname hlen hfits)
  · rintro ⟨e, he⟩
    refine ⟨fun t d r name hchecks => ?_, .inl ⟨e, he⟩⟩
    rw [he] at hchecks
    cases hchecks

/-! ## `ext2_cp` -/

/-- Each string that is copied fits its block. -/
def CpInside (env : Env) (file : Option (List UInt8)) (path₁ path₂ : Name) (img : Image) : Prop :=
  ∀ t d name data, cpChecks file path₁ path₂ img = some (.ok (t, d, name, data)) →
    HasRoom t img d name ext2FtRegFile → StringsFit 12 env.stack data

/-- The checks come upon the directory that the path leads to, which has no such name and has room;
there are an inode and blocks enough, the inode has no links by an earlier use, and the strings are
the file. -/
structure CpMakes (env : Env) (path₁ path₂ : Name) (img : Image) (t : Tables) (d : ℕ)
    (data : List UInt8) : Prop where
  parent : walk img ext2RootIno (tokens path₂) = some d
  free : lookup img d (basename path₁) = none
  room : HasRoom t img d (basename path₁) ext2FtRegFile
  inode : freeInode img ≠ 0
  links : iLinksCount img (freeInode img) = 0
  blocks : blocksFor data.length ≤ (freeBlocks img).length
  fit : StringsFit 12 env.stack data
  copies : ∃ ss, strings 12 env.stack data = some ss ∧ Copies img (freeInode img) ss data

theorem cpChecks_name (h : cpChecks file path₁ path₂ img = some (.ok (t, d, name, data))) :
    name = basename path₁ ∧ file = some data := by
  unfold cpChecks at h
  split at h
  · cases h
  · split at h
    · cases h
    · split at h
      · cases h
      · rename_i hcount
        split at h
        · cases h
        · split at h
          · rename_i names₁ names₂ harr₁ harr₂
            obtain ⟨rfl, -⟩ := arrNames_eq.1 harr₁
            have hne : tokens path₁ ≠ [] := fun hnil => hcount (by rw [countItemInPath, hnil]; rfl)
            simp only at h
            split at h
            · cases h
            · split at h
              · cases h
              · split at h
                · cases h
                · split at h
                  · cases h
                  · cases h
                    exact ⟨(basename_eq hne).symm, rfl⟩
          · cases h

/-! ### The strings -/

theorem length_of_fit {left : ℕ} {buffer : Mem} (hfit : StringsFit left buffer data)
    (hss : strings left buffer data = some ss) : ∀ s ∈ ss, s.length < ext2BlockSize := by
  induction left generalizing buffer data ss with
  | zero =>
    obtain rfl := Option.some.inj hss
    exact fun s hs => absurd hs List.not_mem_nil
  | succ left ih =>
    by_cases hne : data = []
    · rw [hne, strings] at hss
      obtain rfl := Option.some.inj hss
      exact fun s hs => absurd hs List.not_mem_nil
    · have hchunk : data.take ext2BlockSize ≠ [] := by
        rw [ne_eq, List.take_eq_nil_iff, not_or]
        exact ⟨by decide, hne⟩
      obtain ⟨hstring, hrest⟩ := hfit hchunk
      rw [strings_succ left buffer hne] at hss
      obtain ⟨s, hs, hss⟩ := Option.bind_eq_some_iff.1 hss
      obtain ⟨ss', hss', rfl⟩ := Option.map_eq_some_iff.1 hss
      rw [List.forall_mem_cons]
      exact ⟨hstring s hs, ih hrest hss'⟩

theorem mem_targets {xs : List ℕ} {x : ℕ} {s : Name} (h : (x, s) ∈ targets xs ss) :
    (x = 0 ∨ x ∈ xs) ∧ s ∈ ss := by
  induction ss generalizing xs with
  | nil => exact absurd h List.not_mem_nil
  | cons s' ss ih =>
    rw [targets, List.mem_cons, Prod.mk.injEq] at h
    rcases h with ⟨rfl, rfl⟩ | h
    · refine ⟨?_, List.mem_cons_self⟩
      cases xs with
      | nil => exact .inl rfl
      | cons x xs => exact .inr List.mem_cons_self
    · obtain ⟨hx, hs⟩ := ih h
      exact ⟨hx.imp_right List.mem_of_mem_tail, List.mem_cons_of_mem s' hs⟩

/-- Strings that fit their blocks stay clear of what the tool works with. -/
theorem Site.clear_of_fit (hs : Site img d b n)
    (hfit : ∀ s ∈ ss, s.length < ext2BlockSize) : ∀ p ∈ targets (freeBlocks img) ss,
      Disjoint (stringBytes p.1 p.2) (keyBytes img n ∪ dirBytes img d) := by
  rintro ⟨x, s⟩ hp
  obtain ⟨hx, hmem⟩ := mem_targets hp
  have hg := hs.sound.geometry
  have hspare : Spare img x := hx.imp_right mem_freeBlocks.1
  have hsub : stringBytes x s ⊆ blockBytes x := by
    have hlen := hfit s hmem
    intro i hi
    simp only [stringBytes, blockBytes, Set.mem_Ico] at hi ⊢
    omega
  have hheader : Disjoint (blockBytes x) Ext2.header ∧ x ≠ bgBlockBitmap img := by
    rcases hs.sound.spare hspare with rfl | hdata
    · have hbitmap := hg.blockBitmap
      exact ⟨disjoint_header_zero.symm, by omega⟩
    · exact ⟨disjoint_blockBytes_header hdata.three_le, hdata.blockBitmap⟩
  refine Set.disjoint_of_subset_left hsub (Set.disjoint_union_right.2
    ⟨Set.disjoint_union_right.2 ⟨Set.disjoint_union_right.2 ⟨hheader.1,
      disjoint_blockBytes hheader.2⟩, ?_⟩, Set.disjoint_left.2 fun a ha hmem => ?_⟩)
  · exact (disjoint_inodeField_blockBytes hs.one_le hs.le (by decide)
      (hs.spare_table hspare)).symm
  · obtain ⟨k, hk, hak⟩ := hmem
    have hsite : Site img d k n := ⟨hs.sound, hs.dir, hk, hs.one_le, hs.le, hs.file⟩
    refine Set.disjoint_left.1 (disjoint_blockBytes ?_) ha hak
    rintro rfl
    exact hsite.not_spare hspare

/-- A file that reads back has got all of its blocks. -/
theorem FilePut.enough {buffer : Mem} (h : FilePut im im' n ss)
    (hss : strings 12 buffer data = some ss)
    (hsize : iSize im' n = min data.length (12 * ext2BlockSize)) (hreads : ReadsBack im' n data) :
    blocksFor data.length ≤ (freeBlocks im).length := by
  by_contra hlt
  have hlen : data.length ≤ 12 * ext2BlockSize := by
    have heq := hsize.symm.trans hreads.size
    omega
  have hc := blocksFor_le hlen
  have hcount := length_strings hss
  have hpointer : ∀ k < 15, iBlock im' n k = (freeBlocks im).getD k 0 := by
    intro k hk
    by_cases hkc : k < blocksFor data.length
    · rw [h.pointer k hk, if_pos (by omega)]
    · have hle := le_firstUnder k
      rw [hreads.unused k hk (by omega), List.getD_eq_getElem?_getD,
        List.getElem?_eq_none (by omega), Option.getD_none]
  obtain ⟨hfile, -⟩ := fileBlocks_direct
    (fun x hx => Nat.one_le_iff_ne_zero.1 (mem_freeBlocks.1 hx).1) (by omega) hpointer
  have hblocks := hreads.blocks
  rw [hfile] at hblocks
  omega

/-! ### The run -/

theorem Consistent.isDirectory (h : Consistent img) (hd : (space img).Reach d) :
    isDirectory img d = true := by
  rcases hd.cases_named with heq | ⟨q, hq, rfl⟩
  · rw [heq]
    exact h.intact.wellFormed.root
  · rw [Ext2.isDirectory, Bool.and_eq_true, beq_iff_eq]
    exact ⟨h.used q hq, h.sound.isDir hd⟩

/-- A walk that ends at a directory reaches it. -/
theorem reach_of_walk {names : List Name} (hwalk : walk img ext2RootIno names = some d)
    (hd : isDirectory img d = true) : (space img).Reach d := by
  by_cases hne : names = []
  · subst hne
    obtain rfl := Option.some.inj hwalk
    exact .root
  · obtain ⟨q, ⟨m, hm, hq⟩, rfl⟩ := walk_entry hne .root hwalk
    rw [Ext2.isDirectory, Bool.and_eq_true, beq_iff_eq] at hd
    exact hm.step hq hd.2

/-- No entry that was there before is for an inode that was free. -/
theorem Consistent.not_fresh (h : Consistent img) (hq : q ∈ (space img).entries)
    (hfresh : inUse img n = false) : deInode img q ≠ n := by
  rintro rfl
  have hused := h.used q hq
  rw [hfresh] at hused
  cases hused

/-- A new entry for an inode that was free is where the tool has put it. -/
theorem CopiedFile.found {new : ℕ} (hc : Consistent img) (hadd : FileAdded img img' d b n name new)
    {d' m : ℕ} {name' : Name} (hd' : (space img).Reach d')
    (h : CopiedFile img img' d' m name' data) : d' = d ∧ m = n := by
  obtain ⟨k, hk, pos, hpos, hentry⟩ := h.entry
  have hino : deInode img' pos = m := congrArg DirEntry.inode hentry
  have hlive : isLive img' pos = true := by
    have hm := h.fresh.1
    rw [isLive, bne_iff_ne, hino]
    omega
  have hplace : pos ∈ (space img').places d' := by
    rw [mem_places, hadd.edited.blockList_eq hd']
    exact ⟨k, hk, hpos, hlive⟩
  rcases (hadd.edited.mem_places hd').1 hplace with ⟨hold, -⟩ | ⟨hnew, heq⟩
  · have hmem := hd'.mem_entries hold
    refine absurd ?_ (hc.not_fresh hmem h.fresh.2)
    rw [← hino]
    exact (deInode_of_entryAt (hadd.edited.entryAt_eq hmem (Set.notMem_empty pos))).symm
  · exact ⟨heq, hino.symm.trans (hadd.names pos hnew)⟩

/-- There is none when the blocks of directories are as they were. -/
theorem CopiedFile.not_same (hc : Consistent img) (hsame : SameData img img')
    (hd : (space img).Reach d) : ¬ CopiedFile img img' d m name data := by
  intro h
  obtain ⟨k, hk, pos, hpos, hentry⟩ := h.entry
  have hdir := hc.sound.dirs d hd
  obtain ⟨-, hlist, hentries, -⟩ :=
    (hdir.blocks k hk).congr (hsame k (hdir.data k hk).1)
  rw [hlist] at hpos
  rw [hentries pos hpos] at hentry
  have hino : deInode img pos = m := congrArg DirEntry.inode hentry
  have hlive : isLive img pos = true := by
    have hm := h.fresh.1
    rw [isLive, bne_iff_ne, hino]
    omega
  exact hc.not_fresh (mem_entries.2 ⟨d, k, hd, hk, hpos, hlive⟩) h.fresh.2 hino

/-- What is put into the image is the copy asked for, or is not. -/
theorem addFile_made_iff (hc : Consistent img) (hinit : init img = some t) (hd : d ≠ 0)
    (hname : (basename path₁).length < 255)
    (hfit : HasRoom t img d (basename path₁) ext2FtRegFile → StringsFit 12 env.stack data) :
    (∃ im, addFile env t img d (basename path₁) data = some im ∧
      ∃ d' n, FileMade img im path₁ path₂ data d' n) ↔ CpMakes env path₁ path₂ img t d data := by
  have hsound := hc.sound
  constructor
  · rintro ⟨im, hadd, d', n, hmade⟩
    have hd' := reach_of_walk hmade.parent hmade.directory
    rcases addFile_cases hsound hinit hd hname hc.unnamed (fun _ => hfit) hadd with
      ⟨-, rfl, -⟩ | ⟨hroom, b, new, hfile⟩
    · exact absurd hmade.copied
        (CopiedFile.not_same hc (findFreeInode_sameData hsound.geometry) hd')
    · obtain ⟨rfl, rfl⟩ := hmade.copied.found hc hfile hd'
      have hfree : freeInode img ≠ 0 := Nat.one_le_iff_ne_zero.1 hfile.site.one_le
      obtain ⟨b', im₀, hstart, hrun⟩ := addFile_start hc hinit hd hname hfree hroom
      rw [hrun] at hadd
      have heq := hadd
      rw [copyBlocks_eq le_rfl] at heq
      obtain ⟨ss, hss, -⟩ := Option.map_eq_some_iff.1 heq
      obtain ⟨im', hcopy, hput, hsize, -⟩ := hstart.copied hc hss
        (hstart.site.clear_of_fit (length_of_fit (hfit hroom) hss))
      obtain rfl : im' = im := Option.some.inj (hcopy.symm.trans hadd)
      have henough := hput.enough hss hsize hmade.copied.reads
      rw [hstart.free] at henough
      have hlinks := hmade.links
      rw [hfile.links] at hlinks
      have hlt : iLinksCount img (freeInode img) < 65536 := load_lt _ _ _
      have hzero : iLinksCount img (freeInode img) = 0 := by
        change (iLinksCount img (freeInode img) + 1) % 65536 = 1 at hlinks
        omega
      exact ⟨hmade.parent, hmade.free, hroom, hfree, hzero, henough, hfit hroom, ss, hss,
        (hstart.readsBack_iff hss henough hput hsize).1 hmade.copied.reads⟩
  · intro h
    obtain ⟨ss, hss, hcopies⟩ := h.copies
    obtain ⟨b, im₀, hstart, hrun⟩ := addFile_start hc hinit hd hname h.inode h.room
    obtain ⟨im', hcopy, hput, hsize, hentry, -⟩ := hstart.copied hc hss
      (hstart.site.clear_of_fit (length_of_fit h.fit hss))
    have hadd : addFile env t img d (basename path₁) data = some im' := (hrun env data).trans hcopy
    rcases addFile_cases hsound hinit hd hname hc.unnamed (fun _ => hfit) hadd with
      ⟨hno, -⟩ | ⟨-, b', new, hfile⟩
    · exact absurd h.room hno
    · refine ⟨im', hadd, d, freeInode img, h.parent, hc.isDirectory hstart.site.dir, h.free,
        ⟨⟨hstart.site.one_le, findFreeInode_fresh hsound.geometry h.inode⟩, hentry,
          (hstart.readsBack_iff hss h.blocks hput hsize).2 hcopies⟩, ?_, ?_⟩
      · show modeType (iMode im' (findFreeInode img).1) = ext2SIfreg
        rw [hfile.mode]
        decide
      · have hlinks := hfile.links
        change iLinksCount im' (freeInode img) = (iLinksCount img (freeInode img) + 1) % 65536
          at hlinks
        rw [hlinks, h.links]

/-- **`ext2_cp`** exits with 0, so it has to copy right. -/
theorem cp_tells_iff (h : Consistent img) :
    CpInside env file path₁ path₂ img ∧
      Tells (cp env file path₁ path₂ img) img (CpMade img file path₁ path₂) ↔
    (cpChecks file path₁ path₂ img).Refuses ∨ ∃ t d name data,
      cpChecks file path₁ path₂ img = some (.ok (t, d, name, data)) ∧
      CpMakes env path₁ path₂ img t d data := by
  rw [cp, tells_andThen fun _ => cpChecks_code]
  constructor
  · rintro ⟨hinside, hrefuses | ⟨⟨t, d, name, data⟩, hchecks, o, hgo, hcases⟩⟩
    · exact .inl hrefuses
    · obtain ⟨hinit, hd, hname⟩ := cpChecks_ok hchecks
      obtain ⟨rfl, rfl⟩ := cpChecks_name hchecks
      obtain ⟨im, hadd, rfl⟩ := Option.map_eq_some_iff.1 hgo
      rcases hcases with ⟨-, data', d', n, heq, hmade⟩ | ⟨hcode, -⟩
      · obtain rfl := Option.some.inj heq
        exact .inr ⟨t, d, _, data, hchecks, (addFile_made_iff h hinit hd hname
          (hinside t d _ data hchecks)).1 ⟨im, hadd, d', n, hmade⟩⟩
      · exact absurd rfl hcode
  · rintro (⟨e, he⟩ | ⟨t, d, name, data, hchecks, hmakes⟩)
    · refine ⟨fun t d name data hchecks => ?_, .inl ⟨e, he⟩⟩
      rw [he] at hchecks
      cases hchecks
    · obtain ⟨hinit, hd, hname⟩ := cpChecks_ok hchecks
      obtain ⟨rfl, rfl⟩ := cpChecks_name hchecks
      obtain ⟨im, hadd, d', n, hmade⟩ :=
        (addFile_made_iff h hinit hd hname fun _ => hmakes.fit).2 hmakes
      refine ⟨fun t' d' name' data' hchecks' _ => ?_, .inr ⟨(t, d, _, data), hchecks,
        ⟨0, "", im⟩, ?_, .inl ⟨rfl, data, d', n, rfl, hmade⟩⟩⟩
      · rw [hchecks] at hchecks'
        cases hchecks'
        exact hmakes.fit
      · show (addFile env t img d (basename path₁) data).map _ = _
        rw [hadd]
        rfl

/-! ## `ext2_rm` -/

/-- For a last link the loop stops at the bit of the inode, there is a count left, the time is the
current one already, and no block of the file is marked. -/
def FreesAll (env : Env) (t : Tables) (img : Image) (n : ℕ) : Prop :=
  iLinksCount img n = 1 → StopsAtBit env t img n ∧ bgFreeInodesCount img < 65535 ∧
    iDtime img n = env.now % 2 ^ 32 ∧
    ∀ x ∈ fileBlocks img n, x ≤ sBlocksCount img → marked img x = false

section

variable (hb : IsData img b) (hframe : Frame (blockBytes b) img im)
include hb hframe

/-- An entry has been taken out of block `b` before. -/
theorem LinkTaken.of_block {cleared : Option ℕ} {count time : ℕ} (hn₁ : 1 ≤ n)
    (hn₂ : n ≤ sInodesCount img) (h : LinkTaken im im' n cleared count time) :
    LinkTaken img im' n cleared count time := by
  have hs : SameShape img im := .of_frame hframe (disjoint_blockBytes_header hb.three_le)
  constructor
  · rw [h.links, iLinksCount_eq hframe hs
      (disjoint_inodeField_blockBytes hn₁ hn₂ (by decide) hb.table)]
  · intro i hi
    rw [← hs.inodeBitmap, h.bits i hi, hs.inodeBitmap,
      bit_eq hframe (disjoint_blockBytes hb.inodeBitmap.symm) hi]
  · intro i hi
    rw [← hs.blockBitmap, h.blocks i hi, hs.blockBitmap,
      bit_eq hframe (disjoint_blockBytes hb.blockBitmap.symm) hi]
  · exact h.freeInodes
  · rw [h.freeBlocks]
    exact hframe.load_eq fun i hi hlt => Set.disjoint_right.1
      (disjoint_blockBytes_freeCounts hb.three_le) (Set.mem_Ico.2 ⟨by omega, by omega⟩)
  · exact h.time

/-- What `remove_link` does then, in terms of the image with the entry. -/
theorem removeLink_taken_block (hg : Geometry img) (huse : inUse img n = true)
    (hlinks : 1 ≤ iLinksCount img n) :
    LinkTaken img (removeLink env t im n) n (clearedBit env t img n)
      ((bgFreeInodesCount img + if (clearedBit env t img n).isSome then 1 else 0) % 2 ^ 16)
      (if (clearedBit env t img n).isSome then iDtime img n else env.now % 2 ^ 32) := by
  obtain ⟨hn₁, hn₂, hbit⟩ := inUse_iff.1 huse
  have hinodes := hg.inodes
  have hs : SameShape img im := .of_frame hframe (disjoint_blockBytes_header hb.three_le)
  have hbits : ∀ i < 8192, bit im (bgInodeBitmap im) i = bit img (bgInodeBitmap img) i :=
    fun i hi => by
      rw [hs.inodeBitmap, bit_eq hframe (disjoint_blockBytes hb.inodeBitmap.symm) hi]
  have huse' : inUse im n = true := by
    rw [inUse_iff, hs.inodes, hbits (n - 1) (by omega)]
    exact ⟨hn₁, hn₂, hbit⟩
  have hcount : iLinksCount im n = iLinksCount img n := iLinksCount_eq hframe hs
    (disjoint_inodeField_blockBytes hn₁ hn₂ (by decide) hb.table)
  have htime : iDtime im n = iDtime img n := load_inodeField hframe hs
    (disjoint_inodeField_blockBytes hn₁ hn₂ (by decide) hb.table)
  have hfree : bgFreeInodesCount im = bgFreeInodesCount img :=
    hframe.load_eq fun i hi hlt => Set.disjoint_right.1
      (disjoint_blockBytes_freeCounts hb.three_le) (Set.mem_Ico.2 ⟨by omega, by omega⟩)
  have hfound : foundBit env t im n = foundBit env t img n := by
    unfold foundBit
    rw [hs.inodes]
    refine List.find?_congr fun i hi => ?_
    have hlt := List.mem_range.1 hi
    rw [hbits i (by omega)]
  have hcleared : clearedBit env t im n = clearedBit env t img n := by
    rw [clearedBit, clearedBit, hcount, hfound]
  have htaken : LinkTaken im (removeLink env t im n) n (clearedBit env t im n) _ _ :=
    removeLink_taken (hs.geometry hg) huse' (hcount.symm ▸ hlinks)
  rw [hcleared, hfree, htime] at htaken
  exact htaken.of_block hb hframe hn₁ hn₂

/-- **The last link**, when the entry has been taken out. -/
theorem freed_iff (hg : Geometry img) (hinit : init img = some t) (huse : inUse img n = true)
    (hlinks : 1 ≤ iLinksCount img n) :
    Freed env img (removeLink env t im n) n ↔ FreesAll env t img n := by
  obtain ⟨hn₁, hn₂, -⟩ := inUse_iff.1 huse
  have hblocks := hg.blocks
  have hlt : bgFreeInodesCount img < 65536 := load_lt _ _ _
  have hs : SameShape img im := .of_frame hframe (disjoint_blockBytes_header hb.three_le)
  have hs' : SameShape img (removeLink env t im n) := hs.trans
    (removeLink_shape env t (hs.geometry hg) hn₁ (hs.inodes.symm ▸ hn₂))
  have htaken : LinkTaken img (removeLink env t im n) n (clearedBit env t img n) _ _ :=
    removeLink_taken_block hb hframe hg huse hlinks
  have hbits := htaken.bits_iff hinit huse le_rfl hg.inodes
  -- the block bitmap is as it was
  have hmarked : ∀ x ≤ sBlocksCount img, marked (removeLink env t im n) x = marked img x := by
    intro x hx
    rw [marked, marked, hs'.blockBitmap, htaken.blocks (x - 1) (by omega)]
  constructor
  · intro h hlast
    have hstops := hbits.1 h.bits
    have hfree := h.freeInodes
    have htime := h.time hlast
    rw [htaken.freeInodes, clearedBit_eq hinit huse hstops, if_pos hlast, if_pos hlast] at hfree
    rw [htaken.time, clearedBit_eq hinit huse hstops, if_pos hlast] at htime
    simp only [Option.isSome_some, if_true] at hfree htime
    refine ⟨hstops hlast, by omega, htime, fun x hx hle => ?_⟩
    rw [← hmarked x hle]
    exact h.blocks hlast x hx hle
  · intro h
    have hstops : iLinksCount img n = 1 → StopsAtBit env t img n := fun hlast => (h hlast).1
    refine ⟨hbits.2 hstops, ?_, fun hlast => ?_, fun hlast x hx hle => ?_⟩
    · rw [htaken.freeInodes, clearedBit_eq hinit huse hstops]
      split
      · rename_i hlast
        have hless := (h hlast).2.1
        simp only [Option.isSome_some, if_true]
        omega
      · simp only [Option.isSome_none, Bool.false_eq_true, if_false]
        omega
    · rw [htaken.time, (h hlast).2.2.1, ite_self]
    · rw [hmarked x hle]
      exact (h hlast).2.2.2 x hx hle

end

/-- The first entry of the last name in the listed directories is no file's. -/
def FindsNoFile (path : Name) (img : Image) : Prop :=
  ∃ t r q, rmChecks path img = some (.ok (t, r)) ∧
    ((listedDirs img).flatMap (dirEntries img)).find? (fun q => deName img q == basename path) =
      some q ∧ ¬ IsFileEntry img q

/-- The file at the path is what is found, and all of it is freed with its last entry. -/
structure RmMakes (env : Env) (path : Name) (img : Image) (t : Tables) (p pos : ℕ) : Prop where
  tables : init img = some t
  entry : PathEntry img path p pos
  file : IsFile img (deInode img pos)
  found : Found img path pos
  frees : FreesAll env t img (deInode img pos)

/-- What is freed when the file is found. -/
theorem removes_iff (h : Consistent img) (hinit : init img = some t)
    (hentry : PathEntry img path p pos) (hfile : IsFile img (deInode img pos)) {o : Outcome}
    (hrun : rm env path img = some o) : Removes env img o.img path p pos ↔
      Found img path pos ∧ FreesAll env t img (deInode img pos) := by
  obtain ⟨hpos, hlive, -⟩ := hentry.live
  have hused : inUse img (deInode img pos) = true :=
    h.used pos ((reach_of_walk hentry.parent hentry.directory).mem_entries ⟨hpos, hlive⟩)
  have hlinks := (h.intact.named p hentry.directory pos hpos hlive).2
  have hunlinks := rm_unlinks_iff env h.intact hentry hfile
  -- what the run comes to when the file is found
  have hfreed : Found img path pos →
      (Freed env img o.img (deInode img pos) ↔ FreesAll env t img (deInode img pos)) := by
    intro hfound
    obtain ⟨t', b, as, pre, bs, hinit', hb, hplace, hrm⟩ :=
      hentry.rm_found h.intact hfile hfound env
    obtain rfl : t = t' := Option.some.inj (hinit.symm.trans hinit')
    obtain rfl := Option.some.inj (hrun.symm.trans hrm)
    obtain ⟨hok, hdata⟩ := h.intact.blocks p hentry.directory b hb
    show Freed env img (removeLink env t (unlinkEntry img (some pre) pos) (deInode img pos))
      (deInode img pos) ↔ _
    exact freed_iff hdata (unlinkEntry_removed hok hplace).2 h.sound.geometry hinit hused hlinks
  constructor
  · intro hrem
    have hfound := hunlinks.1 ⟨o, hrun, hrem.unlinks⟩
    exact ⟨hfound, (hfreed hfound).1 hrem.freed⟩
  · rintro ⟨hfound, hfrees⟩
    obtain ⟨o', hrun', hun⟩ := hunlinks.2 hfound
    obtain rfl := Option.some.inj (hrun.symm.trans hrun')
    exact ⟨hentry, hfile, hun, (hfreed hfound).2 hfrees⟩

/-- **`ext2_rm`** exits with `EISDIR` before it has changed anything, or with 0. -/
theorem rm_tells_iff (h : Consistent img) :
    Tells (rm env path img) img (RmMade env img path) ↔
      (rmChecks path img).Refuses ∨ FindsNoFile path img ∨
        ∃ t p pos, RmMakes env path img t p pos := by
  have htiles : ∀ t, init img = some t → ∀ b ∈ t.dirs, BlockTiles img b :=
    fun t hinit b hb => h.intact.tiles hinit hb
  constructor
  · rw [rm, tells_andThen fun _ => rmChecks_code]
    refine Or.imp_right ?_
    rintro ⟨⟨t, r⟩, hchecks, o, hgo, hcases⟩
    have hinit := (rmChecks_ok.1 hchecks).1
    have hrun : rm env path img = some o := by
      rw [rm, hchecks]
      exact hgo
    rcases hcases with ⟨-, p, pos, hrem⟩ | ⟨hcode, -⟩
    · obtain ⟨hfound, hfrees⟩ := (removes_iff h hinit hrem.entry hrem.file hrun).1 hrem
      exact .inr ⟨t, p, pos, hinit, hrem.entry, hrem.file, hfound, hfrees⟩
    · change rmFile env t img r (basename path) = some o at hgo
      rw [rmFile_eq (htiles t hinit)] at hgo
      obtain ⟨⟨pre, q⟩, hfound, rfl⟩ := Option.map_eq_some_iff.1 hgo
      refine .inl ⟨t, r, q, hchecks, ?_, fun hfile => hcode ?_⟩
      · rw [← h.intact.findNamed_eq hinit, hfound]
        rfl
      · rw [if_pos hfile]
  · rintro (hrefuses | ⟨t, r, q, hchecks, hfirst, hfile⟩ | ⟨t, p, pos, hmakes⟩)
    · rw [rm, tells_andThen fun _ => rmChecks_code]
      exact .inl hrefuses
    · have hinit := (rmChecks_ok.1 hchecks).1
      rw [← h.intact.findNamed_eq hinit] at hfirst
      obtain ⟨⟨pre, q'⟩, hfound, rfl⟩ := Option.map_eq_some_iff.1 hfirst
      refine ⟨⟨eisdir, dirErr, img⟩, ?_, .inr ⟨show eisdir ≠ 0 by decide, rfl⟩⟩
      rw [rm, hchecks]
      show rmFile env t img r (basename path) = _
      rw [rmFile_eq (htiles t hinit), hfound, Option.map_some, if_neg hfile]
    · obtain ⟨_, _, _, _, _, -, -, -, hrun⟩ :=
        hmakes.entry.rm_found h.intact hmakes.file hmakes.found env
      exact ⟨_, hrun, .inl ⟨rfl, p, pos, (removes_iff h hmakes.tables hmakes.entry hmakes.file
        hrun).2 ⟨hmakes.found, hmakes.frees⟩⟩⟩

/-! ## All tools -/

/-- **When the exit code tells the truth**, for each of the tools. -/
theorem truthful_iff (h : Consistent img) (env : Env) (file : Option (List UInt8))
    (path path₁ path₂ : Name) :
    (Tells (mkdir path img) img (MkdirMade img path) ↔
      (mkdirChecks path img).Refuses ∨ MkdirFails path img) ∧
    (CpInside env file path₁ path₂ img ∧
        Tells (cp env file path₁ path₂ img) img (CpMade img file path₁ path₂) ↔
      (cpChecks file path₁ path₂ img).Refuses ∨ ∃ t d name data,
        cpChecks file path₁ path₂ img = some (.ok (t, d, name, data)) ∧
        CpMakes env path₁ path₂ img t d data) ∧
    (Tells (ln false path₁ path₂ img) img (LnMade img path₁ path₂) ↔
      (lnChecks path₁ path₂ img).Refuses) ∧
    (LinkInside path₁ path₂ img ∧
        Tells (ln true path₁ path₂ img) img (SymlinkMade img path₁ path₂) ↔
      (lnChecks path₁ path₂ img).Refuses) ∧
    (Tells (rm env path img) img (RmMade env img path) ↔
      (rmChecks path img).Refuses ∨ FindsNoFile path img ∨
        ∃ t p pos, RmMakes env path img t p pos) :=
  ⟨mkdir_tells_iff h, cp_tells_iff h, ln_tells_iff h _, symlink_tells_iff h _, rm_tells_iff h⟩

/-- `/a` is a directory, and `/h` does not exist: the exit codes of these commands are true. -/
theorem truthful_iff_example :
    Tells (mkdir [47, 97] exImage) exImage (MkdirMade exImage [47, 97]) ∧
    (CpInside exEnv none [47, 104] [47, 103] exImage ∧
      Tells (cp exEnv none [47, 104] [47, 103] exImage) exImage
        (CpMade exImage none [47, 104] [47, 103])) ∧
    Tells (ln false [47, 104] [47, 103] exImage) exImage (LnMade exImage [47, 104] [47, 103]) ∧
    (LinkInside [47, 104] [47, 103] exImage ∧
      Tells (ln true [47, 104] [47, 103] exImage) exImage
        (SymlinkMade exImage [47, 104] [47, 103])) ∧
    Tells (rm exEnv [47, 97] exImage) exImage (RmMade exEnv exImage [47, 97]) := by
  obtain ⟨hmkdir, hcp, hln, hlink, hrm⟩ :=
    truthful_iff exImage_consistent exEnv none [47, 97] [47, 104] [47, 103]
  have hexists : (mkdirChecks [47, 97] exImage).Refuses := ⟨(eexist, existErr), by decide +kernel⟩
  have hnofile : (cpChecks none [47, 104] [47, 103] exImage).Refuses :=
    ⟨(enoent, dneErr), by decide +kernel⟩
  have hnosource : (lnChecks [47, 104] [47, 103] exImage).Refuses :=
    ⟨(enoent, dneErr), by decide +kernel⟩
  have hdirectory : FindsNoFile [47, 97] exImage := by
    refine ⟨exTables, 12, 9240, by decide +kernel, ?_, by decide +kernel⟩
    rw [← exImage_consistent.intact.findNamed_eq exImage_init]
    decide +kernel
  exact ⟨hmkdir.2 (.inl hexists), hcp.2 (.inl hnofile), hln.2 hnosource, hlink.2 hnosource,
    hrm.2 (.inr (.inl hdirectory))⟩

/-- `ext2_ln /f /g` exits with `ENOENT`, and the link is there. -/
theorem ln_untruthful : Consistent exImage ∧ LinkPaths exImage [47, 102] [47, 103] 9252 2 ∧
    ∃ o, ln false [47, 102] [47, 103] exImage = some o ∧ o.code = enoent ∧
      walk exImage ext2RootIno (tokens [47, 103]) = none ∧
      walk o.img ext2RootIno (tokens [47, 103]) = some 15 ∧
      ¬ Tells (ln false [47, 102] [47, 103] exImage) exImage
        (LnMade exImage [47, 102] [47, 103]) := by
  have hrun : (ln false [47, 102] [47, 103] exImage).map (fun o =>
      (o.code, walk o.img ext2RootIno (tokens [47, 103]))) = some (enoent, some 15) := by
    decide +kernel
  have hbefore : walk exImage ext2RootIno (tokens [47, 103]) = none := by decide +kernel
  obtain ⟨o, ho, hfacts⟩ := Option.map_eq_some_iff.1 hrun
  simp only [Prod.mk.injEq] at hfacts
  obtain ⟨hcode, hwalk⟩ := hfacts
  refine ⟨exImage_consistent, ⟨⟨2, exImage_pathEntry⟩, by decide +kernel, exImage_newPath⟩, o, ho,
    hcode, hbefore, hwalk, ?_⟩
  rintro ⟨o', ho', hcases⟩
  obtain rfl : o = o' := Option.some.inj (ho.symm.trans ho')
  rcases hcases with ⟨hzero, -⟩ | ⟨-, himg⟩
  · rw [hcode] at hzero
    exact absurd hzero (by decide)
  · rw [himg, hbefore] at hwalk
    cases hwalk

end Cscc69.Ext2
