import Cscc69.Ext2.Stages

/-!
# What the tools do

After its checks a tool has found the parent directory and the name (`mkdirChecks_ok`,
`cpChecks_ok`, `lnChecks_ok`). Whether `create_link` adds the entry depends on the room in one block
of the parent (`HasRoom`); when there is none the tool goes on all the same, or leaves the new inode
marked.

Each tool that adds an entry is an edit of that block: `addDir_cases`, `addFile_cases` and
`addHardLink_cases`; `ext2_rm` is one when the entry that it finds is in use and not the first of
its block (`unlink_edited`), and takes a link of its inode if that is the one that it finds
(`rm_edited`).
-/

namespace Cscc69.Ext2

open Bytes Records Naming

variable {img im im' img' : Image} {n m b d k x q r mode : ℕ} {name path path₁ path₂ : Name}
  {t : Tables} {env : Env} {as bs : List ℕ} {e : DirEntry}

/-! ## The checks -/

theorem arrNames_eq {names : List Name} : arrNames path = some names ↔
    names = tokens path ∧ ∀ w ∈ tokens path, w.length < 255 := by
  unfold arrNames
  split
  · rename_i hall
    have hall : ∀ w ∈ tokens path, w.length < 255 := by simpa using hall
    rw [Option.some.injEq, and_iff_left hall, eq_comm]
  · rename_i hall
    have hall : ¬ ∀ w ∈ tokens path, w.length < 255 := by simpa using hall
    exact iff_of_false (fun h => by cases h) fun h => hall h.2

theorem arrNames_length {names : List Name} (h : arrNames path = some names) :
    ∀ w ∈ names, w.length < 255 := by
  obtain ⟨rfl, hlen⟩ := arrNames_eq.1 h
  exact hlen

theorem length_getLastD {names : List Name} (h : ∀ w ∈ names, w.length < 255) :
    (names.getLastD []).length < 255 := by
  rw [List.getLastD_eq_getLast?]
  cases hlast : names.getLast? with
  | none => decide
  | some w => exact h w (List.mem_of_getLast? hlast)

theorem mkdirChecks_ok (h : mkdirChecks path img = some (.ok (t, d, name))) :
    init img = some t ∧ d ≠ 0 ∧ name.length < 255 := by
  unfold mkdirChecks at h
  split at h
  · cases h
  · rename_i t' hinit
    split at h
    · cases h
    · split at h
      · cases h
      · cases h
      · rename_i dirName harr
        split at h
        · cases h
        · cases h
          exact ⟨hinit, by decide, arrNames_length harr _ (by simp)⟩
        · cases h
      · rename_i name₁ name₂ names harr
        simp only at h
        split at h
        · cases h
        · cases h
        · rename_i parent hparent
          split at h
          · cases h
          · cases h
            refine ⟨hinit, ?_, arrNames_length harr _ ?_⟩
            · assumption
            · exact List.mem_cons_of_mem _ (List.getLast_mem _)
          · cases h

theorem cpChecks_ok {file : Option (List UInt8)} {data : List UInt8}
    (h : cpChecks file path₁ path₂ img = some (.ok (t, d, name, data))) :
    init img = some t ∧ d ≠ 0 ∧ name.length < 255 := by
  unfold cpChecks at h
  split at h
  · cases h
  · rename_i t' hinit
    split at h
    · cases h
    · split at h
      · cases h
      · split at h
        · cases h
        · split at h
          · rename_i names₁ names₂ harr₁ harr₂
            simp only at h
            split at h
            · cases h
            · split at h
              · cases h
              · split at h
                · cases h
                · split at h
                  · cases h
                  · rename_i hparent
                    cases h
                    exact ⟨hinit, hparent, length_getLastD (arrNames_length harr₁)⟩
          · cases h

theorem basename_eq (h : tokens path ≠ []) : basename path = (tokens path).getLastD [] := by
  rw [basename, List.getLastD_eq_getLast?, List.getLast?_eq_some_getLast h]
  rfl

/-- The directory that `ext2_ln` takes for the parent of a path. -/
def lnParent (t : Tables) (img : Image) (path : Name) : Option ℕ :=
  if 2 ≤ (tokens path).length then
    traversePath t img (tokens (getParentPath (tokens path).length path))
      ((tokens path).dropLast.getLastD [])
  else some ext2RootIno

/-- **What the checks of `ext2_ln` come to.** -/
theorem lnChecks_iff : lnChecks path₁ path₂ img = some (.ok (t, d, r, name)) ↔
    init img = some t ∧ tokens path₁ ≠ [] ∧ tokens path₂ ≠ [] ∧
      (∀ w ∈ tokens path₁, w.length < 255) ∧ (∀ w ∈ tokens path₂, w.length < 255) ∧
      traversePath t img (tokens path₁) (basename path₁) = some r ∧ r ≠ 0 ∧
      traversePath t img (tokens path₂) (basename path₂) = some 0 ∧
      (∃ q, findDirEntry t img r (basename path₁) = some (some q) ∧ IsFileEntry img q) ∧
      lnParent t img path₂ = some d ∧ d ≠ 0 ∧ name = basename path₂ := by
  -- with one component the search begins at the root all the same
  have hone : ∀ t', tokens path₂ ≠ [] →
      (if 2 ≤ (tokens path₂).length then
        traversePath t' img (tokens path₂) ((tokens path₂).getLastD [])
      else traverse t' img ((tokens path₂).getLastD []) ext2RootIno
        ((tokens path₂).getLastD []) []) =
      traversePath t' img (tokens path₂) (basename path₂) := by
    intro t' hne
    rw [basename_eq hne]
    split
    · rfl
    · rename_i hlen
      obtain ⟨c, cs, hcs⟩ := List.exists_cons_of_ne_nil hne
      cases cs with
      | nil => rw [hcs]; rfl
      | cons c' cs' =>
        rw [hcs] at hlen
        exact absurd (by simp) hlen
  constructor
  · intro h
    unfold lnChecks at h
    split at h
    · cases h
    · rename_i t' hinit
      split at h
      · cases h
      · split at h
        · cases h
        · rename_i hcount
          simp only [countItemInPath, List.length_eq_zero_iff, not_or] at hcount
          obtain ⟨hne₁, hne₂⟩ := hcount
          split at h
          · cases h
          · rename_i names₁ harr₁
            obtain ⟨rfl, hlen₁⟩ := arrNames_eq.1 harr₁
            rw [← basename_eq hne₁] at h
            simp only at h
            split at h
            · cases h
            · cases h
            · rename_i r' hr htraverse
              split at h
              · cases h
              · rename_i names₂ harr₂
                obtain ⟨rfl, hlen₂⟩ := arrNames_eq.1 harr₂
                simp only [hone t' hne₂] at h
                split at h
                · cases h
                · rename_i inode₂ htarget
                  split at h
                  · cases h
                  · rename_i hzero
                    obtain rfl : inode₂ = 0 := not_not.1 hzero
                    split at h
                    · rename_i q hfound
                      split at h
                      · rename_i hfile
                        split at h
                        · cases h
                        · cases h
                        · rename_i d' hd hparent
                          cases h
                          exact ⟨hinit, hne₁, hne₂, hlen₁, hlen₂, htraverse, hr, htarget,
                            ⟨q, hfound, hfile⟩, hparent, hd, (basename_eq hne₂).symm⟩
                      · cases h
                    · cases h
  · intro h
    obtain ⟨hinit, hne₁, hne₂, hlen₁, hlen₂, htraverse, hr, htarget, ⟨q, hfound, hfile⟩, hparent,
      hd, rfl⟩ := h
    obtain ⟨r, rfl⟩ := Nat.exists_eq_succ_of_ne_zero hr
    obtain ⟨d, rfl⟩ := Nat.exists_eq_succ_of_ne_zero hd
    have hslash : ¬ (path₁ = [slash] ∨ path₂ = [slash]) := by
      rintro (rfl | rfl)
      · exact hne₁ rfl
      · exact hne₂ rfl
    have hcount : ¬ (countItemInPath path₁ = 0 ∨ countItemInPath path₂ = 0) := by
      simp only [countItemInPath, List.length_eq_zero_iff, not_or]
      exact ⟨hne₁, hne₂⟩
    have htarget' := (hone t hne₂).trans htarget
    unfold lnParent at hparent
    simp only [lnChecks, hinit, if_neg hslash, if_neg hcount, arrNames_eq.2 ⟨rfl, hlen₁⟩,
      arrNames_eq.2 ⟨rfl, hlen₂⟩, ← basename_eq hne₁, htraverse, htarget', hfound, if_pos hfile,
      hparent, ne_eq, not_true_eq_false, if_false, basename_eq hne₂]

/-- `ext2_ln` has found the inode `r` at the first path. -/
theorem lnChecks_ok (h : lnChecks path₁ path₂ img = some (.ok (t, d, r, name))) :
    init img = some t ∧ d ≠ 0 ∧ name.length < 255 ∧ r ≠ 0 ∧
      ∃ c, traversePath t img (tokens path₁) c = some r := by
  obtain ⟨hinit, -, hne₂, -, hlen₂, hsource, hr, -, -, -, hd, rfl⟩ := lnChecks_iff.1 h
  exact ⟨hinit, hd, hlen₂ _ (basename_mem hne₂), hr, _, hsource⟩

/-! ## Runs that pass the checks -/

theorem mkdir_cases {o : Outcome} (hrun : mkdir path img = some o) : o.img = img ∨
    ∃ t d name, mkdirChecks path img = some (.ok (t, d, name)) ∧
      addDir t img d name = some o.img := by
  rcases Checked.andThen_some hrun with heq | ⟨⟨t, d, name⟩, hchecks, hgo⟩
  · exact .inl heq
  · obtain ⟨img', hadd, hout⟩ := Option.map_eq_some_iff.1 hgo
    have himg : o.img = img' := by
      rw [← hout]
      split
      · rfl
      · rfl
    exact .inr ⟨t, d, name, hchecks, himg ▸ hadd⟩

theorem cp_cases {file : Option (List UInt8)} {o : Outcome}
    (hrun : cp env file path₁ path₂ img = some o) : o.img = img ∨
    ∃ t d name data, cpChecks file path₁ path₂ img = some (.ok (t, d, name, data)) ∧
      addFile env t img d name data = some o.img := by
  rcases Checked.andThen_some hrun with heq | ⟨⟨t, d, name, data⟩, hchecks, hgo⟩
  · exact .inl heq
  · obtain ⟨img', hadd, rfl⟩ := Option.map_eq_some_iff.1 hgo
    exact .inr ⟨t, d, name, data, hchecks, hadd⟩

theorem ln_cases {sflag : Bool} {o : Outcome} (hrun : ln sflag path₁ path₂ img = some o) :
    o.img = img ∨
    ∃ t d r name, lnChecks path₁ path₂ img = some (.ok (t, d, r, name)) ∧
      (if sflag then addSymlink t img d name path₂ else addHardLink t img d r name) =
        some o.img := by
  rcases Checked.andThen_some hrun with heq | ⟨⟨t, d, r, name⟩, hchecks, hgo⟩
  · exact .inl heq
  · obtain ⟨img', hadd, rfl⟩ := Option.map_eq_some_iff.1 hgo
    exact .inr ⟨t, d, r, name, hchecks, hadd⟩

/-! ## `create_link` -/

/-- Block `b` has room for an entry. -/
def RoomIn (img : Image) (b : ℕ) (name : Name) (mode : ℕ) : Prop :=
  ∃ q ∈ blockEntries img b, hasRoom img name mode q = true

/-- The block of directory `d` that `create_link` looks at has. -/
def HasRoom (t : Tables) (img : Image) (d : ℕ) (name : Name) (mode : ℕ) : Prop :=
  ∃ b, findDirBlockPos t img d = some (b * ext2BlockSize) ∧ RoomIn img b name mode

theorem createLink_fst (hbase : findDirBlockPos t img d = some (b * ext2BlockSize))
    (htiles : BlockTiles img b) {r : Bool × Image}
    (hr : createLink t img d n name mode = some r) : r.1 = true ↔ RoomIn img b name mode := by
  rw [createLink_eq hbase htiles] at hr
  obtain rfl := Option.some.inj hr
  cases hfind : (blockEntries img b).find? (hasRoom img name mode) with
  | none =>
    refine iff_of_false Bool.false_ne_true fun hroom => ?_
    obtain ⟨q, hq, hq'⟩ := hroom
    exact List.find?_eq_none.1 hfind q hq hq'
  | some q =>
    exact iff_of_true rfl ⟨q, List.mem_of_find?_eq_some hfind, List.find?_some hfind⟩

/-- An entry of a block that stays has the room that it had. -/
theorem hasRoom_congr (h : BlockOk img b)
    (hag : Agree img im (b * ext2BlockSize) (b * ext2BlockSize + ext2BlockSize))
    (hq : q ∈ blockEntries img b) : recLen im q = recLen img q ∧ dirSize im q = dirSize img q ∧
      hasRoom im name mode q = hasRoom img name mode q := by
  have hmem := h.mem hq
  have hlong := h.long q hq
  have hlen : recLen im q = recLen img q := recLen_congr (hag.mono (by omega) (by omega))
  have hsize : dirSize im q = dirSize img q := by
    rw [dirSize, dirSize, nameLen, nameLen, hag (q + 6) (by omega) (by omega)]
  refine ⟨hlen, hsize, ?_⟩
  rw [hasRoom, hasRoom, hsize, hlen]

theorem roomIn_congr (h : BlockOk img b)
    (hag : Agree img im (b * ext2BlockSize) (b * ext2BlockSize + ext2BlockSize)) :
    RoomIn im b name mode ↔ RoomIn img b name mode := by
  have hlist := (h.congr hag).2.1
  unfold RoomIn
  rw [hlist]
  refine exists_congr fun q => and_congr_right fun hq => ?_
  rw [(hasRoom_congr h hag hq).2.2]

theorem Added.of_agree {new : ℕ} (hok : BlockOk img b)
    (hag : Agree img im (b * ext2BlockSize) (b * ext2BlockSize + ext2BlockSize))
    (h : Added im img' b as q new bs e) : Added img img' b as q new bs e := by
  obtain ⟨-, hlist, hentries, hdir⟩ := hok.congr hag
  have hbefore : blockEntries img b = as ++ q :: bs := hlist.symm.trans h.before
  refine ⟨hbefore, h.after, h.ok, h.entry, fun r hr => ?_, fun m => (h.dirOf m).trans (hdir m)⟩
  rw [h.same r hr, hentries r (by rw [hbefore]; exact hr)]

/-- The blocks of directories and files hold the same bytes. -/
def SameData (img im : Image) : Prop :=
  ∀ b, IsData img b → Agree img im (b * ext2BlockSize) (b * ext2BlockSize + ext2BlockSize)

theorem findDirBlockPos_congr (h : Sound img) (hinit : init img = some t) (hsame : SameData img im)
    (n : ℕ) : findDirBlockPos t im n = findDirBlockPos t img n := by
  have hfind : t.dirs.find? (isDirOf im n) = t.dirs.find? (isDirOf img n) := by
    refine List.find?_congr fun b hb => ?_
    obtain ⟨m, hm, hbm⟩ := h.mem_dirs hinit hb
    have hdir := h.dirs m hm
    exact ((hdir.blocks b hbm).congr (hsame b (hdir.data b hbm).1)).2.2.2 n
  rw [findDirBlockPos, findDirBlockPos, hfind]

/-- The entry for inode `n` has been added to block `b`. -/
structure Linked (img im im' : Image) (b n mode : ℕ) (name : Name) (as : List ℕ) (q new : ℕ)
    (bs : List ℕ) : Prop where
  frame : Frame (blockBytes b) im im'
  added : Added img im' b as q new bs ⟨n, mode, name⟩

/-- **What `create_link` does** on an image with the directory blocks of `img`: it adds the entry
to the first block of the directory if that has room, and changes nothing otherwise. -/
theorem createLink_found (h : Sound img) (hinit : init img = some t) (hd : d ≠ 0)
    (hsame : SameData img im) (hname : name.length < 255) (hn : n < 2 ^ 32) (hmode : mode < 256)
    (hmode' : mode ≠ ext2FtSymlink) {r : Bool × Image}
    (hr : createLink t im d n name mode = some r) :
    ∃ b ∈ blockList img d, findDirBlockPos t img d = some (b * ext2BlockSize) ∧
      (space img).Reach d ∧ (¬ HasRoom t img d name mode ∧ r = (false, im) ∨
        HasRoom t img d name mode ∧ r.1 = true ∧
          ∃ as q new bs, Linked img im r.2 b n mode name as q new bs) := by
  have hbase : ∃ base, findDirBlockPos t im d = some base := by
    unfold createLink at hr
    split at hr
    · cases hr
    · rename_i base hbase
      exact ⟨base, hbase⟩
  obtain ⟨base, hbase⟩ := hbase
  have hpos := hbase
  rw [findDirBlockPos_congr h hinit hsame] at hpos
  obtain ⟨b, hb, hreach, rfl⟩ := h.findDirBlockPos hinit hd hpos
  have hdir := h.dirs d hreach
  have hok := hdir.blocks b hb
  have hag := hsame b (hdir.data b hb).1
  have hok' : BlockOk im b := (hok.congr hag).1
  have hroom : r.1 = true ↔ HasRoom t img d name mode := by
    rw [createLink_fst hbase hok'.tiles hr, roomIn_congr hok hag]
    constructor
    · intro hroom
      exact ⟨b, hpos, hroom⟩
    · rintro ⟨b', hpos', hroom⟩
      have hsize : ext2BlockSize = 1024 := rfl
      rw [hpos, Option.some.injEq, hsize] at hpos'
      obtain rfl : b = b' := by omega
      exact hroom
  refine ⟨b, hb, hpos, hreach, ?_⟩
  rcases createLink_added hbase hok' (by omega) hn hmode hmode' hr with heq | hadd
  · refine .inl ⟨fun hhas => ?_, heq⟩
    have htrue := hroom.2 hhas
    rw [heq] at htrue
    cases htrue
  · obtain ⟨htrue, hframe, as, q, bs, hadded⟩ := hadd
    exact .inr ⟨hroom.1 htrue, htrue, as, q, _, bs, hframe, hadded.of_agree hok hag⟩

theorem createLink_cases (h : Sound img) (hinit : init img = some t) (hd : d ≠ 0)
    (hsame : SameData img im) (hname : name.length < 255) (hn : n < 2 ^ 32) (hmode : mode < 256)
    (hmode' : mode ≠ ext2FtSymlink) {r : Bool × Image}
    (hr : createLink t im d n name mode = some r) :
    ∃ b ∈ blockList img d, (space img).Reach d ∧
      (¬ HasRoom t img d name mode ∧ r = (false, im) ∨
        HasRoom t img d name mode ∧ r.1 = true ∧
          ∃ as q new bs, Linked img im r.2 b n mode name as q new bs) := by
  obtain ⟨b, hb, -, hreach, hcases⟩ :=
    createLink_found h hinit hd hsame hname hn hmode hmode' hr
  exact ⟨b, hb, hreach, hcases⟩

/-! ## A new inode -/

theorem findFreeInode_sameData (hg : Geometry img) : SameData img (findFreeInode img).2 :=
  fun _ hb => agree_blockBytes (findFreeInode_marks hg).1.frame (Set.disjoint_union_right.2
    ⟨disjoint_blockBytes hb.inodeBitmap, disjoint_blockBytes_freeCounts hb.three_le⟩)

theorem findFreeInode_zero (h : (findFreeInode img).1 = 0) : (findFreeInode img).2 = img := by
  unfold findFreeInode at h ⊢
  split
  · rfl
  · rename_i i hfind
    rw [hfind] at h
    exact absurd h (Nat.succ_ne_zero i)

/-- No entry names inode `n`. -/
def Unnamed (img : Image) (n : ℕ) : Prop := ∀ q ∈ (space img).entries, deInode img q ≠ n

/-- A free inode that no entry names, and a block of a directory. -/
theorem Sound.site (h : Sound img) (hfree : (findFreeInode img).1 ≠ 0)
    (hunnamed : Unnamed img (findFreeInode img).1) (hd : (space img).Reach d)
    (hb : b ∈ blockList img d) : Site img d b (findFreeInode img).1 := by
  obtain ⟨hmarks, hge⟩ := findFreeInode_marks h.geometry
  refine ⟨h, hd, hb, Nat.one_le_iff_ne_zero.2 hfree, hmarks.range, fun hreach => ?_⟩
  rcases hreach.cases_named with hroot | ⟨q, hq, heq⟩
  · have hroot : (findFreeInode img).1 = 2 := hroot
    have hge := hge hfree
    omega
  · exact hunnamed q hq heq

/-- The image when `create_link` has added the entry for a new inode. -/
theorem Linked.stage {new : ℕ} (hs : Site img d b (findFreeInode img).1)
    (hl : Linked img (findFreeInode img).2 im b (findFreeInode img).1 mode name as q new bs) :
    Stage img im b (findFreeInode img).1 d ∧
      (findFreeBlock im).1 = (findFreeBlock img).1 ∧
      ∀ m off len, 1 ≤ m → m ≤ sInodesCount img → off + len ≤ 128 → SameField img im m off len := by
  have hg := hs.sound.geometry
  have hframe₀ := (findFreeInode_marks hg).1.frame
  have h₀ := hs.findFreeInode.1
  have h₁ := h₀.block hs hl.frame
  refine ⟨h₁, findFreeBlock_congr (h₁.shape hs) ?_ hg.blocks, fun m off len hm₁ hm₂ hlen =>
    SameField.trans ?_ (h₀.sameField_block hs h₁ hm₁ hm₂ hlen (.inl rfl) hl.frame)⟩
  · have hdisj : Disjoint (blockBytes (bgBlockBitmap img))
        (blockBytes (bgInodeBitmap img) ∪ freeCounts) := Set.disjoint_union_right.2
      ⟨disjoint_blockBytes hg.bitmaps, disjoint_blockBytes_freeCounts hg.blockBitmap⟩
    exact (agree_blockBytes hframe₀ hdisj).trans
      (agree_blockBytes hl.frame (disjoint_blockBytes hs.data.blockBitmap.symm))
  · refine (Stage.refl img b _ d).sameField hs h₀ hframe₀ ?_
    exact Set.disjoint_union_right.2
      ⟨disjoint_inodeField_blockBytes hm₁ hm₂ hlen hg.inodeBitmap_table,
        disjoint_inodeField_freeCounts hg hm₁ hm₂ hlen⟩

/-! ## `ext2_mkdir` -/

/-- The directory with inode `n` and block `x` has been added to directory `d`, in block `b`. -/
structure DirAdded (img img' : Image) (d b n x : ℕ) (name : Name) (new : ℕ) : Prop where
  site : Site img d b n
  edited : Edited img img' d b n ∅ {new}
  entry : entryAt img' new = ⟨n, ext2FtDir, name⟩
  spare : Spare img x
  marked : x ≠ 0 → marked img' x = true
  dots : NewDir img' x n d
  mode : iMode img' n = ext2SIfdir
  links : iLinksCount img' n = 2
  first : iBlock img' n 0 = x
  later : ∀ k, 1 ≤ k → k ≤ 12 → iBlock img' n k = iBlock img n k
  parent : iLinksCount img' d = (iLinksCount img d + 1) % 65536

/-- **The end of `ext2_mkdir`.** -/
theorem addDir_cases (h : Sound img) (hinit : init img = some t) (hd : d ≠ 0)
    (hname : name.length < 255) (hunnamed : Unnamed img (findFreeInode img).1)
    (hadd : addDir t img d name = some img') :
    ¬ HasRoom t img d name ext2FtDir ∧ img' = (findFreeInode img).2 ∧
      (space img).Reach d ∧ (∃ b, b ∈ blockList img d) ∨
    HasRoom t img d name ext2FtDir ∧ ∃ b new,
      DirAdded img img' d b (findFreeInode img).1 (findFreeBlock img).1 name new := by
  have hg := h.geometry
  have hle := (findFreeInode_marks hg).1.range
  have hinodes := hg.inodes
  unfold addDir at hadd
  dsimp only at hadd
  split at hadd
  · cases hadd
  · rename_i im hlink
    obtain rfl := Option.some.inj hadd
    obtain ⟨b, hb, hreach, hcases⟩ := createLink_cases h hinit hd (findFreeInode_sameData hg)
      hname (by omega) (by decide) (by decide) hlink
    rcases hcases with ⟨hno, heq⟩ | ⟨-, htrue, -⟩
    · exact .inl ⟨hno, congrArg Prod.snd heq, hreach, b, hb⟩
    · exact absurd htrue Bool.false_ne_true
  · rename_i im hlink
    obtain ⟨b, hb, hreach, hcases⟩ := createLink_cases h hinit hd (findFreeInode_sameData hg)
      hname (by omega) (by decide) (by decide) hlink
    rcases hcases with ⟨-, heq⟩ | ⟨hroom, -, as, q, new, bs, hl⟩
    · exact absurd (congrArg Prod.fst heq).symm Bool.false_ne_true
    · have hfree : (findFreeInode img).1 ≠ 0 := by
        intro hzero
        rw [allocate, if_pos hzero] at hadd
        cases hadd
      have hs := h.site hfree hunnamed hreach hb
      obtain ⟨hstage, hblock, hsame⟩ := hl.stage hs
      have hnew := hstage.allocateDir hs hadd
      rw [hblock] at hnew
      have hadded := hl.added.congr hnew.block
      obtain ⟨hd₁, hd₂⟩ := h.range hreach
      have hparent : iLinksCount im d = iLinksCount img d := hsame d 26 2 hd₁ hd₂ (by decide)
      have hlater : ∀ k, k ≤ 12 → iBlock im (findFreeInode img).1 k =
          iBlock img (findFreeInode img).1 k := by
        intro k hk
        have hload := hsame _ (40 + 4 * k) 4 hs.one_le hs.le (by omega)
        rw [SameField, ← Nat.add_assoc, ← Nat.add_assoc] at hload
        exact hload
      exact .inr ⟨hroom, b, new, hs, hnew.stage.added hs hadded rfl
        fun q hq hqn => absurd hqn (hunnamed q hq), hadded.entry, hnew.spare, hnew.marked,
        hnew.dots, hnew.mode, hnew.links, hnew.first,
        fun k hk₁ hk₂ => (hnew.later k hk₁ hk₂).trans (hlater k hk₂), hparent ▸ hnew.parent⟩

theorem blockList_one (h₀ : iBlock img n 0 = x) (hx : x ≠ 0) (h₁ : iBlock img n 1 = 0) :
    blockList img n = [x] := by
  have hrange : List.range 12 = 0 :: 1 :: (List.range 10).map (· + 2) := by decide
  rw [blockList, hrange, List.map_cons, List.map_cons, h₀, h₁,
    List.takeWhile_cons_of_pos (by simpa using hx), List.takeWhile_cons_of_neg (by simp)]

namespace DirAdded

section

variable {new : ℕ} (h : DirAdded img img' d b n x name new)
include h

/-- The new block was none of a directory. -/
theorem notMem_blockList (hm : (space img).Reach m) : x ∉ blockList img m := fun hmem =>
  (⟨h.site.sound, hm, hmem, h.site.one_le, h.site.le, h.site.file⟩ : Site img m x n).not_spare
    h.spare

/-- An entry that the new block has afterwards was none before. -/
theorem notMem_entries (hq : q ∈ blockEntries img' x) : q ∉ (space img).entries := by
  intro hmem
  obtain ⟨m, k, hm, hk, hqk, -⟩ := mem_entries.1 hmem
  have hkx : k = x := by
    rw [← ((h.site.sound.dirs m hm).blocks k hk).div_eq hqk, h.dots.ok.div_eq hq]
  rw [hkx] at hk
  exact h.notMem_blockList hm hk

theorem isDir_new : (space img').isDir n := by
  show modeType (iMode img' n) = ext2SIfdir
  rw [h.mode]
  decide

/-- The entry in the parent is in another block. -/
theorem ne_dots (hq : q ∈ blockEntries img' x) : new ≠ q := by
  rintro rfl
  have hnew : new ∈ blockEntries img' b := ((h.edited.live new).2 (.inr rfl)).1
  have hbx : b = x := by
    rw [← h.edited.ok.div_eq hnew, h.dots.ok.div_eq hq]
  exact h.notMem_blockList h.site.dir (hbx ▸ h.site.block)

theorem deInode_here : deInode img' (x * ext2BlockSize) = n :=
  congrArg DirEntry.inode h.dots.here

theorem deInode_up : deInode img' (x * ext2BlockSize + 12) = d :=
  congrArg DirEntry.inode h.dots.up

end

variable {new : ℕ} (h : DirAdded img img' d b n x name new) (hx : x ≠ 0)
  (hfirst : iBlock img n 1 = 0)
include h hx hfirst

theorem blockList_new : blockList img' n = [x] :=
  blockList_one h.first hx ((h.later 1 le_rfl (by decide)).trans hfirst)

/-- **A directory comes into the name space.** -/
theorem addsDir : Space.AddsDir (space img) (space img') d new n (x * ext2BlockSize)
    (x * ext2BlockSize + 12) where
  toChanges := h.edited.changes
  new := h.site.file
  names := congrArg DirEntry.inode h.entry
  directory := h.isDir_new
  own q := by
    have hn := h.site.one_le
    obtain ⟨hd, -⟩ := h.site.sound.range h.site.dir
    have hlive : ∀ q ∈ blockEntries img' x, isLive img' q = true := by
      intro q hq
      rw [isLive, bne_iff_ne]
      simp only [h.dots.entries, List.mem_cons, List.not_mem_nil, or_false] at hq
      rcases hq with rfl | rfl
      · rw [h.deInode_here]
        omega
      · rw [h.deInode_up]
        omega
    rw [mem_places, h.blockList_new hx hfirst]
    simp only [List.mem_singleton, exists_eq_left]
    rw [and_iff_left_of_imp (hlive q), h.dots.entries]
    simp
  here_target := h.deInode_here
  up_target := h.deInode_up
  here_fresh := h.notMem_entries (by simp [h.dots.entries])
  up_fresh := h.notMem_entries (by simp [h.dots.entries])
  distinct := ⟨h.ne_dots (by simp [h.dots.entries]), h.ne_dots (by simp [h.dots.entries]),
    by omega⟩

/-- The entries afterwards: those that were there, the new one and the two in the new block. -/
theorem cases_entries (hq : q ∈ (space img').entries) :
    q ∈ (space img).entries ∨ q = new ∨ q ∈ blockEntries img' x := by
  rw [(h.addsDir hx hfirst).entries] at hq
  simp only [Set.mem_union, Set.mem_insert_iff, Set.mem_singleton_iff] at hq
  rw [h.dots.entries]
  simp only [List.mem_cons, List.not_mem_nil, or_false]
  exact hq

/-- The new directory is in order. -/
theorem dirSound_new : DirSound img' n := by
  have hlist := h.blockList_new hx hfirst
  have hdata : IsData img x := (h.site.sound.spare h.spare).resolve_left hx
  refine ⟨⟨1, by decide, (h.later 1 le_rfl (by decide)).trans hfirst⟩, fun k hk => ?_,
    fun k hk => ?_, fun k hk m hm hdir => ?_⟩
  all_goals obtain rfl : k = x := by simpa [hlist] using hk
  · exact h.dots.ok
  · refine ⟨h.edited.isData hdata, ?_, h.marked hx⟩
    rw [h.edited.shape.blocks]
    exact (h.spare.resolve_left hx).2.1
  · rw [isDirOf, Bool.and_eq_true, beq_iff_eq, h.deInode_here] at hdir
    exact hdir.1

/-- **The image is sound still.** -/
theorem sound : Sound img' := by
  have hs := h.site.sound
  have hshape := h.edited.shape
  have hadds := h.addsDir hx hfirst
  have hreach : ∀ {m}, (space img').Reach m ↔ (space img).Reach m ∨ m = n := hadds.reach
  have hlist := h.blockList_new hx hfirst
  have hroot : ext2RootIno ≠ n := fun heq => h.site.file (heq ▸ .root)
  have hkept : ∀ q ∈ (space img).entries, deInode img' q = deInode img q := fun q hq =>
    deInode_of_entryAt (h.edited.entryAt_eq hq (Set.notMem_empty q))
  obtain ⟨hd₁, hd₂⟩ := hs.range h.site.dir
  refine ⟨hshape.geometry hs.geometry, hshape.tablesInside hs.tables, ?_, ?_, fun m hm => ?_,
    fun m m' hm hm' k hk hk' => ?_, fun q hq => ?_, fun q hq htype => ?_, fun m hm => ?_,
    fun x hx₁ hx₂ hno => h.edited.reserved hx₁ hx₂ hno⟩
  · exact (h.edited.isDir_iff (by decide) hs.rootLe hroot).2 hs.root
  · rw [hshape.inodes]
    exact hs.rootLe
  · rcases hreach.1 hm with hm | rfl
    · exact h.edited.dirSound hm
    · exact h.dirSound_new hx hfirst
  · rcases hreach.1 hm with hm | rfl
    · rw [h.edited.blockList_eq hm] at hk
      rcases hreach.1 hm' with hm' | rfl
      · rw [h.edited.blockList_eq hm'] at hk'
        exact hs.apart m m' hm hm' k hk hk'
      · obtain rfl : k = x := by simpa [hlist] using hk'
        exact absurd hk (h.notMem_blockList hm)
    · obtain rfl : k = x := by simpa [hlist] using hk
      rcases hreach.1 hm' with hm' | rfl
      · rw [h.edited.blockList_eq hm'] at hk'
        exact absurd hk' (h.notMem_blockList hm')
      · rfl
  · rw [hshape.inodes]
    rcases h.cases_entries hx hfirst hq with hq | rfl | hq
    · rw [hkept q hq]
      exact hs.named q hq
    · rw [show deInode img' q = n from hadds.names]
      exact h.site.le
    · simp only [h.dots.entries, List.mem_cons, List.not_mem_nil, or_false] at hq
      rcases hq with rfl | rfl
      · rw [h.deInode_here]
        exact h.site.le
      · rw [h.deInode_up]
        exact hd₂
  · rcases h.cases_entries hx hfirst hq with hq | hq
    · rw [hkept q hq, show (space img').isDir (deInode img q) ↔ _ from
        h.edited.changes.isDir q hq (Set.notMem_empty q)]
      exact hs.types q hq ((h.edited.isFileEntry_iff hq (Set.notMem_empty q)).1 htype)
    · -- the three new entries are of directories
      have hft : fileType img' q = ext2FtDir := by
        rcases hq with rfl | hq
        · exact congrArg DirEntry.fileType h.entry
        · simp only [h.dots.entries, List.mem_cons, List.not_mem_nil, or_false] at hq
          rcases hq with rfl | rfl
          · exact congrArg DirEntry.fileType h.dots.here
          · exact congrArg DirEntry.fileType h.dots.up
      rw [IsFileEntry, hft] at htype
      exact absurd htype (by decide)
  · rcases h.edited.listed hm with ⟨rfl, -⟩ | hm
    · exact hreach.2 (.inr rfl)
    · exact hreach.2 (.inl hm)

end DirAdded

/-! ## `ext2_cp` and `ext2_ln` -/

/-- An entry for the file with inode `n` has been added to directory `d`, in block `b`. -/
structure FileAdded (img img' : Image) (d b n : ℕ) (name : Name) (new : ℕ) : Prop where
  site : Site img d b n
  edited : Edited img img' d b n ∅ {new}
  entry : entryAt img' new = ⟨n, ext2FtRegFile, name⟩
  mode : iMode img' n = ext2SIfreg
  links : iLinksCount img' n = (iLinksCount img n + 1) % 65536
  others : ∀ m, 1 ≤ m → m ≤ sInodesCount img → m ≠ n → iLinksCount img' m = iLinksCount img m

namespace FileAdded

variable {new : ℕ} (h : FileAdded img img' d b n name new)
include h

theorem file : ¬ (space img').isDir n := by
  show ¬ modeType (iMode img' n) = ext2SIfdir
  rw [h.mode]
  decide

theorem names (q : ℕ) (hq : q ∈ ({new} : Set ℕ)) : deInode img' q = n := by
  rw [Set.mem_singleton_iff.1 hq]
  exact congrArg DirEntry.inode h.entry

theorem sound : Sound img' := h.edited.sound h.file h.names

end FileAdded

/-- A new entry for `n`, and then what `allocate` and `copy` do. -/
theorem fileAdded {new : ℕ} (hs : Site img d b n)
    (hadd : Added img im b as q new bs ⟨n, ext2FtRegFile, name⟩)
    (hsame : ∀ m, 1 ≤ m → m ≤ sInodesCount img → SameField img im m 26 2)
    (hlink : LinkedFile img im im' b n d) (hcopy : Copied img im' img' b n d) :
    FileAdded img img' d b n name new := by
  have hadded := (hadd.congr hlink.block).congr hcopy.block
  have hmode : iMode img' n = ext2SIfreg := Eq.trans (hcopy.own 0 2 (by decide)) hlink.mode
  refine ⟨hs, hcopy.stage.added hs hadded rfl fun _ _ _ => ?_, hadded.entry, hmode, ?_,
    fun m hm₁ hm₂ hne => ?_⟩
  · show ¬ modeType (iMode img' n) = ext2SIfdir
    rw [hmode]
    decide
  · have hkept : iLinksCount im n = iLinksCount img n := hsame n hs.one_le hs.le
    have hlinks : iLinksCount img' n = iLinksCount im' n := hcopy.own 26 2 (by decide)
    rw [hlinks, hlink.links, hkept]
  · exact ((hsame m hm₁ hm₂).trans (hlink.others m 26 2 hm₁ hne (by decide))).trans
      (hcopy.others m 26 2 hm₁ hm₂ hne (by decide))

theorem Copied.refl (h : Stage img im b n d) : Copied img im im b n d :=
  ⟨h, .refl _ _ _, fun _ _ _ => rfl, fun _ _ _ _ _ _ _ => rfl⟩

/-- **The end of `ext2_cp`.** -/
theorem addFile_cases (h : Sound img) (hinit : init img = some t) (hd : d ≠ 0)
    (hname : name.length < 255) (hunnamed : Unnamed img (findFreeInode img).1)
    {data : List UInt8} (hfit : (findFreeInode img).1 ≠ 0 → HasRoom t img d name ext2FtRegFile →
      StringsFit 12 env.stack data)
    (hadd : addFile env t img d name data = some img') :
    ¬ HasRoom t img d name ext2FtRegFile ∧ img' = (findFreeInode img).2 ∧
      (space img).Reach d ∧ (∃ b, b ∈ blockList img d) ∨
    HasRoom t img d name ext2FtRegFile ∧ ∃ b new,
      FileAdded img img' d b (findFreeInode img).1 name new := by
  have hg := h.geometry
  have hle := (findFreeInode_marks hg).1.range
  have hinodes := hg.inodes
  unfold addFile at hadd
  dsimp only at hadd
  split at hadd
  · cases hadd
  · rename_i im hlink
    obtain rfl := Option.some.inj hadd
    obtain ⟨b, hb, hreach, hcases⟩ := createLink_cases h hinit hd (findFreeInode_sameData hg)
      hname (by omega) (by decide) (by decide) hlink
    rcases hcases with ⟨hno, heq⟩ | ⟨-, htrue, -⟩
    · exact .inl ⟨hno, congrArg Prod.snd heq, hreach, b, hb⟩
    · exact absurd htrue Bool.false_ne_true
  · rename_i im hlink
    obtain ⟨b, hb, hreach, hcases⟩ := createLink_cases h hinit hd (findFreeInode_sameData hg)
      hname (by omega) (by decide) (by decide) hlink
    rcases hcases with ⟨-, heq⟩ | ⟨hroom, -, as, q, new, bs, hl⟩
    · exact absurd (congrArg Prod.fst heq).symm Bool.false_ne_true
    · rw [allocate_file_eq] at hadd
      split at hadd
      · cases hadd
      · rename_i im' halloc
        split at halloc
        · cases halloc
        · rename_i hfree
          obtain rfl := Option.some.inj halloc
          rw [copy, if_neg hfree] at hadd
          have hs := h.site hfree hunnamed hreach hb
          obtain ⟨hstage, -, hsame⟩ := hl.stage hs
          have hlinked := hstage.linkFile hs
          exact .inr ⟨hroom, b, new, fileAdded hs hl.added
            (fun m hm₁ hm₂ => hsame m 26 2 hm₁ hm₂ (by decide)) hlinked
            (hlinked.stage.copyBlocks hs le_rfl (hfit hfree hroom) hadd)⟩

/-- **The end of `ext2_ln`.** -/
theorem addHardLink_cases (h : Sound img) (hinit : init img = some t) (hd : d ≠ 0)
    (hname : name.length < 255) (hr₁ : 1 ≤ r) (hr₂ : r ≤ sInodesCount img)
    (hfile : ¬ (space img).isDir r) (hadd : addHardLink t img d r name = some img') :
    ¬ HasRoom t img d name ext2FtRegFile ∧ img' = linkFile img r ∧
      (∃ b, Site img d b r) ∨
    HasRoom t img d name ext2FtRegFile ∧ ∃ b new, FileAdded img img' d b r name new ∧
      Frame (blockBytes b ∪ inodeField img r 0 28) img img' := by
  have hinodes := h.geometry.inodes
  have hr : r ≠ 0 := by omega
  unfold addHardLink at hadd
  split at hadd
  · cases hadd
  · rename_i res im hlink
    rw [allocate_file_eq, if_neg hr] at hadd
    obtain rfl := Option.some.inj hadd
    obtain ⟨b, hb, hreach, hcases⟩ := createLink_cases h hinit hd (fun _ _ => .refl _ _ _)
      hname (by omega) (by decide) (by decide) hlink
    have hs : Site img d b r :=
      ⟨h, hreach, hb, hr₁, hr₂, fun hreach => hfile (h.isDir hreach)⟩
    rcases hcases with ⟨hno, heq⟩ | ⟨hroom, -, as, q, new, bs, hl⟩
    · obtain rfl : im = img := congrArg Prod.snd heq
      exact .inl ⟨hno, rfl, b, hs⟩
    · have hrefl := Stage.refl img b r d
      have hstage : Stage img im b r d := hrefl.block hs hl.frame
      have hlinked := hstage.linkFile hs
      refine .inr ⟨hroom, b, new, fileAdded hs hl.added
        (fun m hm₁ hm₂ => hrefl.sameField_block hs hstage hm₁ hm₂ (by decide) (.inl rfl) hl.frame)
        hlinked (.refl hlinked.stage), ?_⟩
      refine (hl.frame.mono Set.subset_union_left).trans (hlinked.frame.mono ?_)
      rw [(hstage.shape hs).inodeField_eq]
      exact Set.subset_union_right

/-! ## `ext2_rm` -/

theorem Unlink.stage (hs : Site img d b n) (h : Unlink img img' b n) : Stage img img' b n d := by
  have hg := hs.sound.geometry
  refine ⟨h.frame.mono ?_, fun x hx hmarked => ?_, fun i hi hbit => .inl (h.bits i ?_ hbit)⟩
  · have hfield : inodeField img n 20 8 ⊆ inodeField img n 0 128 :=
      inodeField_mono (by decide) (by decide)
    rintro i (hi | hi | hi | hi)
    · exact .inl (.inl (.inl hi))
    · exact .inl (.inl (.inr (.inl (hfield hi))))
    · exact .inl (.inr (.inl (.inl hi)))
    · exact .inl (.inr (.inr hi))
  · have hblocks := hg.blocks
    have hdisj : Disjoint (blockBytes (bgBlockBitmap img))
        (blockBytes b ∪ removeLinkBytes img n) := Set.disjoint_union_right.2
      ⟨disjoint_blockBytes hs.data.blockBitmap.symm, Set.disjoint_union_right.2
        ⟨(disjoint_inodeField_blockBytes hs.one_le hs.le (by decide) hg.blockBitmap_table).symm,
          Set.disjoint_union_right.2 ⟨disjoint_blockBytes hg.bitmaps,
            disjoint_blockBytes_freeCounts hg.blockBitmap⟩⟩⟩
    rw [marked, h.shape.blockBitmap, bit_eq h.frame hdisj (by omega)]
    exact hmarked
  · have hinodes := hg.inodes
    omega

/-- The entry at `q` for the file with inode `n` has been removed from directory `d`, in block
`b`. -/
structure FileRemoved (img img' : Image) (d b n q : ℕ) : Prop where
  edited : Edited img img' d b n {q} ∅
  target : deInode img q = n
  file : ¬ (space img').isDir n
  unlink : Unlink img img' b n

theorem FileRemoved.sound (h : FileRemoved img img' d b n q) : Sound img' :=
  h.edited.sound h.file fun _ hq => absurd hq (Set.notMem_empty _)

theorem FileRemoved.others (h : FileRemoved img img' d b n q) (h₁ : 1 ≤ m)
    (h₂ : m ≤ sInodesCount img) (hne : m ≠ n) : iLinksCount img' m = iLinksCount img m :=
  iLinksCount_eq h.unlink.frame h.unlink.shape (disjoint_inodeField_unlink
    h.edited.site.sound.geometry h.edited.site.data h₁ h₂ h.edited.site.one_le (by decide)
    (.inl hne))

/-- **Removing the entry that is found**, when it is in use and not the first of its block, and the
inode that is found is no directory. -/
theorem unlink_edited (env : Env) (h : Sound img) (hinit : init img = some t) {pre : ℕ}
    (hr₁ : 1 ≤ r) (hr₂ : r ≤ sInodesCount img) (hdir : ¬ (space img).isDir r)
    (hfound : findNamed t img name = some (pre, q)) (hlive : isLive img q = true)
    (hfile : IsFileEntry img q) (hpre : pre ≠ q) :
    ∃ d b, Frame (blockBytes b) img (unlinkEntry img (some pre) q) ∧
      Unlink img (removeLink env t (unlinkEntry img (some pre) q) r) b r ∧
      ¬ (space (removeLink env t (unlinkEntry img (some pre) q) r)).isDir r ∧
      Edited img (removeLink env t (unlinkEntry img (some pre) q) r) d b r {q} ∅ := by
  obtain ⟨-, b, hb, hplace⟩ := findNamed_some hfound
  obtain ⟨d, hd, hbd⟩ := h.mem_dirs hinit hb
  have hok := (h.dirs d hd).blocks b hbd
  have hplace : ∃ as bs, blockEntries img b = as ++ pre :: q :: bs := by
    rcases hplace with ⟨bs, hbs, hfirst⟩ | hplace
    · obtain ⟨ps, hps⟩ := hok.first
      rw [hbs] at hps
      exact absurd (hfirst.trans (List.cons.inj hps).1.symm) hpre
    · exact hplace
  obtain ⟨as, bs, hplace⟩ := hplace
  have hs : Site img d b r := ⟨h, hd, hbd, hr₁, hr₂, fun hreach => hdir (h.isDir hreach)⟩
  obtain ⟨hrem, hframe⟩ := unlinkEntry_removed hok hplace
  obtain ⟨hunlink, hag⟩ := unlink_of_frame h.geometry hs.data hframe hr₁ hr₂ env t
  have hmode : ¬ (space (removeLink env t (unlinkEntry img (some pre) q) r)).isDir r := by
    show ¬ modeType (iMode _ r) = ext2SIfdir
    rw [iMode_eq hunlink.frame hunlink.shape (disjoint_inodeField_unlink h.geometry hs.data hr₁ hr₂
      hr₁ (by decide) (.inr (.inl (by decide))))]
    exact hdir
  exact ⟨d, b, hframe, hunlink, hmode,
    (hunlink.stage hs).removed hs (hrem.congr hag) hlive hfile fun _ _ _ => hmode⟩

/-- **Removing a name of the inode that is found.** -/
theorem rm_edited (h : Sound img) (hinit : init img = some t) {pre : ℕ} (hr : r ≠ 0)
    (hfound : findNamed t img name = some (pre, q)) (hfile : IsFileEntry img q)
    (hq : deInode img q = r) (hpre : pre ≠ q) :
    ∃ d b, FileRemoved img (removeLink env t (unlinkEntry img (some pre) q) r) d b r q := by
  obtain ⟨-, b, hb, hplace⟩ := findNamed_some hfound
  obtain ⟨d, hd, hbd⟩ := h.mem_dirs hinit hb
  have hlive : isLive img q = true := by
    rw [isLive, bne_iff_ne, hq]
    exact hr
  have hmem : q ∈ (space img).entries :=
    h.entry hinit hb (mem_of_place ((h.dirs d hd).blocks b hbd) hplace).1 hlive
  obtain ⟨d, b, -, hunlink, hmode, hedit⟩ :=
    unlink_edited env h hinit (Nat.one_le_iff_ne_zero.2 hr) (hq ▸ h.named q hmem)
      (hq ▸ h.types q hmem hfile) hfound hlive hfile hpre
  exact ⟨d, b, hedit, hq, hmode, hunlink⟩

/-- What a run of `ext2_rm` does to a sound image. -/
theorem Sound.rm_cases (h : Sound img) {o : Outcome} (hrm : rm env path img = some o) :
    o.img = img ∨ ∃ t r pre q, rmChecks path img = some (.ok (t, r)) ∧
      findNamed t img (basename path) = some (pre, q) ∧ IsFileEntry img q ∧
      o.img = removeLink env t (unlinkEntry img (some pre) q) r :=
  Ext2.rm_cases (fun _ hinit _ hb => (h.blockOk hinit hb).tiles) hrm

/-! ## `ext2_rm_bonus` -/

/-- A call of `remove_r` that finds no directory. -/
theorem removeR_file (htiles : ∀ b ∈ t.dirs, BlockTiles img b) {pre depth : ℕ} {rflag : Bool}
    (hfound : findNamed t img name = some (pre, q)) (hdir : fileType img q ≠ ext2FtDir) :
    removeR env t rflag (depth + 1) img k r name =
      if IsFileEntry img q then
        some (1, removeLink env t (unlinkEntry img (some pre) q) r, k)
      else some (0, img, k) := by
  rw [removeR, findDirEntry, findPrePos, searchDirs_all htiles, hfound]
  simp only [Option.map_some, hdir, false_and, if_false]

/-- `ext2_rm_bonus` comes to an error, or `remove_r` leaves the image. -/
theorem rmBonus_some {rflag : Bool} {o : Outcome} (hrm : rmBonus env rflag path img = some o) :
    o.img = img ∨ ∃ t r result k, rmChecks path img = some (.ok (t, r)) ∧
      removeR env t rflag imageSize img 0 r (basename path) = some (result, o.img, k) := by
  rcases Checked.andThen_some hrm with heq | ⟨⟨t, r⟩, hchecks, hrm⟩
  · exact .inl heq
  obtain ⟨⟨result, img', k⟩, hremove, hout⟩ := Option.map_eq_some_iff.1 hrm
  have himg : o.img = img' := by
    rw [← hout]
    dsimp only
    split
    · rfl
    · split
      · rfl
      · rfl
  exact .inr ⟨t, r, result, k, hchecks, himg ▸ hremove⟩

/-- What a run of `ext2_rm_bonus` does that finds no directory. -/
theorem Sound.rmBonus_cases (h : Sound img) {rflag : Bool} {o : Outcome}
    (hrm : rmBonus env rflag path img = some o)
    (hdir : ∀ t r pre q, rmChecks path img = some (.ok (t, r)) →
      findNamed t img (basename path) = some (pre, q) → fileType img q ≠ ext2FtDir) :
    o.img = img ∨ ∃ t r pre q, rmChecks path img = some (.ok (t, r)) ∧
      findNamed t img (basename path) = some (pre, q) ∧ IsFileEntry img q ∧
      o.img = removeLink env t (unlinkEntry img (some pre) q) r := by
  rcases rmBonus_some hrm with heq | ⟨t, r, result, k, hchecks, hremove⟩
  · exact .inl heq
  have hinit := (rmChecks_ok.1 hchecks).1
  have htiles : ∀ b ∈ t.dirs, BlockTiles img b := fun b hb => (h.blockOk hinit hb).tiles
  obtain ⟨depth, hdepth⟩ : ∃ depth, imageSize = depth + 1 := ⟨131071, rfl⟩
  cases hfound : findNamed t img (basename path) with
  | none =>
    rw [hdepth, removeR, findDirEntry, searchDirs_all htiles, hfound] at hremove
    cases hremove
  | some f =>
    obtain ⟨pre, q⟩ := f
    rw [hdepth, removeR_file htiles hfound (hdir t r pre q hchecks hfound)] at hremove
    split at hremove
    · rename_i hfile
      simp only [Option.some.injEq, Prod.mk.injEq] at hremove
      exact .inr ⟨t, r, pre, q, hchecks, hfound, hfile, hremove.2.1.symm⟩
    · simp only [Option.some.injEq, Prod.mk.injEq] at hremove
      exact .inl hremove.2.1.symm

/-! ## An example -/

/-- `ln /f /g` -/
theorem exImage_lnChecks : lnChecks [47, 102] [47, 103] exImage =
    some (.ok (exTables, 2, 15, [103])) := by
  decide +kernel

end Cscc69.Ext2
