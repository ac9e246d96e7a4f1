import Cscc69.Ext2.ExitCodes
import Cscc69.Ext2.Listing

/-!
# Removing a directory

`ext2_rm_bonus -r` should remove a directory with all that is below it (`TreeRemoved`), whatever is
in the memory that it gets from `malloc`. It never does (`rmBonus_never`).

When the block bitmap comes before the inode table and the blocks of the directories, as on the
disks that this program is for, no run writes to it (`rmBonus_marked`), so that the blocks of the
directory stay marked whatever the memory holds. On the other disks there is a memory for which the
program fails (`not_removesTree`). When the first entry of the name is that of

* a file, then this one is removed, and no block of the directory becomes free
  (`marked_of_fileBranch`);
* a directory with nothing but `.` and `..` in its first block, then `remove_r` is not called again,
  and the exit code is `ENOENT`;
* a directory with another entry there, then `remove_r` is called with a copy of its name that has
  no NUL at its end. If what stands behind it in memory makes the name too long for any entry, then
  a null pointer is read (`removeR_long`).

In that memory the loops of `remove_r` end without a call, or not at all (`removeBlocks_idle`).
-/

namespace Cscc69.Ext2

open Bytes Records Naming

variable {img img' : Image} {b d f k n m pos q x : ℕ} {path name : Name} {t : Tables} {env : Env}
  {rec : Image → ℕ → ℕ → Name → Option (ℕ × Image × ℕ)}

/-! ## What should be removed -/

/-- The directories of the tree below directory `d`, and `d` itself. -/
inductive Inside (img : Image) (d : ℕ) : ℕ → Prop
  | self : Inside img d d
  | child {m q : ℕ} : Inside img d m → q ∈ dirEntries img m → isLive img q = true →
      deName img q ≠ [dot] → deName img q ≠ [dot, dot] → isDirectory img (deInode img q) = true →
      Inside img d (deInode img q)

/-- The used entries of the tree. -/
def namesInside (img : Image) (d : ℕ) : Set ℕ :=
  {q | ∃ m, Inside img d m ∧ q ∈ dirEntries img m ∧ isLive img q = true}

/-- The inode has names in the tree, and no directory outside has an entry for it, unless it is the
one of the tree itself. -/
def OnlyInside (img : Image) (d n : ℕ) : Prop :=
  (∃ q ∈ namesInside img d, deInode img q = n) ∧
    ∀ m, isDirectory img m = true → ¬ Inside img d m → ∀ q ∈ dirEntries img m,
      isLive img q = true → deInode img q = n → n = d

/-- The data blocks of a directory or of a file. -/
def dataBlocks (img : Image) (n : ℕ) : List ℕ :=
  if isDirectory img n then blockList img n else fileBlocks img n

/-- Directory `d` has been removed with all that is below it, and nothing else has. -/
structure TreeRemoved (img img' : Image) (d : ℕ) : Prop where
  entry : ∀ m, isDirectory img m = true → ¬ Inside img d m →
    liveEntries img' m = (liveEntries img m).filter fun e => e.2.inode ≠ d
  freed : ∀ n, inUse img n = true → OnlyInside img d n →
    bit img' (bgInodeBitmap img') (n - 1) = false ∧
      ∀ x ∈ dataBlocks img n, x ≤ sBlocksCount img → marked img' x = false
  kept : ∀ n, inUse img n = true → ¬ OnlyInside img d n → inUse img' n = true ∧
    iLinksCount img' n = iLinksCount img n - {q ∈ namesInside img d | deInode img q = n}.ncard
  others : ∀ m, isDirectory img m = true → ¬ Inside img d m → ∀ b ∈ blockList img m,
    (∀ q ∈ blockEntries img b, isLive img q = true → deInode img q ≠ d) →
      Agree img img' (b * ext2BlockSize) (b * ext2BlockSize + ext2BlockSize)

/-- What `ext2_rm_bonus -r` should do on a path to directory `d`. -/
def RemovesTreeIn (env : Env) (img : Image) (path : Name) (d : ℕ) : Prop :=
  ∃ o, rmBonus env true path img = some o ∧ o.code = 0 ∧ TreeRemoved img o.img d

/-- It should do so whatever it finds outside the image. -/
def RemovesTree (img : Image) (path : Name) (d : ℕ) : Prop :=
  ∀ env, RemovesTreeIn env img path d

/-- The names in the directories are C strings. -/
def CStrings (img : Image) : Prop :=
  ∀ n, isDirectory img n = true → ∀ q ∈ dirEntries img n, 0 ∉ deName img q

/-- The first entry of a directory names it. -/
theorem Intact.dot_inside (hwf : Intact img) (hd : isDirectory img d = true) :
    ∃ q ∈ namesInside img d, deInode img q = d := by
  obtain ⟨b, bs, hlist, hino, -⟩ := (hwf.wellFormed.dirOk d hd).dot
  have hb : b ∈ blockList img d := by
    rw [hlist]
    exact List.mem_cons_self
  obtain ⟨ps, hps⟩ := (hwf.blocks d hd b hb).1.first
  have hlive : isLive img (b * ext2BlockSize) = true := by
    have hne : d ≠ 0 := by
      rintro rfl
      rw [isDirectory_zero] at hd
      cases hd
    simpa [isLive, hino] using hne
  refine ⟨b * ext2BlockSize, ⟨d, .self, ?_, hlive⟩, hino⟩
  exact List.mem_flatMap.2 ⟨b, hb, by rw [hps]; exact List.mem_cons_self⟩

/-- A directory itself is in the tree below it. -/
theorem Intact.onlyInside (hwf : Intact img) (hd : isDirectory img d = true) :
    OnlyInside img d d :=
  ⟨hwf.dot_inside hd, fun _ _ _ _ _ _ _ => rfl⟩

/-! ## Names that are too long -/

/-- A name of 256 bytes is that of no entry. -/
theorem findDirEntry_long (hwf : Intact img) (hinit : init img = some t) (hname : 256 ≤ name.length)
    (r : ℕ) : findDirEntry t img r name = some none := by
  rw [hwf.findDirEntry_eq hinit, Option.some.injEq, List.find?_eq_none]
  intro q _ heq
  have hlength : name.length = nameLen img q := by
    rw [← beq_iff_eq.1 heq, deName, length_read]
  have hlt : nameLen img q < 256 := UInt8.toNat_lt _
  omega

/-- `remove_r` crashes on it. -/
theorem removeR_long (hwf : Intact img) (hinit : init img = some t) (hname : 256 ≤ name.length)
    (env : Env) (rflag : Bool) (depth : ℕ) (n : ℕ) :
    removeR env t rflag depth img k n name = none := by
  cases depth with
  | zero => rfl
  | succ depth =>
    unfold removeR
    rw [findDirEntry_long hwf hinit hname]

/-! ## The loops without a call -/

/-- A result without a change. -/
def Idle (img : Image) (k : ℕ) (run : Option (ℕ × Image × ℕ)) : Prop :=
  run = none ∨ run = some (0, img, k)

/-- In the later blocks nothing is done while the result is 0. -/
theorem removeEntries_later {index fuel : ℕ} (hindex : index ≠ 0) :
    Idle img k (removeEntries env rec index fuel img k 0 pos) := by
  induction fuel generalizing pos with
  | zero => exact .inl rfl
  | succ fuel ih =>
    unfold removeEntries
    rw [if_neg (by simp [hindex])]
    dsimp only
    split
    · exact .inr rfl
    · exact ih

/-- In the first block there is no call, or one with a name that is too long. -/
theorem removeEntries_first {fuel e : ℕ} {ps : List ℕ}
    (hrec : ∀ k n name, 256 ≤ name.length → rec img k n name = none)
    (henv : ∀ k, (env.garbage k).length = 256) (hend : atBlockEnd e = true)
    (htiles : Tiles (recLen img) pos e ps) (hlt : pos < e) (hnul : ∀ q ∈ ps, 0 ∉ deName img q) :
    Idle img k (removeEntries env rec 0 fuel img k 0 pos) := by
  induction fuel generalizing pos ps with
  | zero => exact .inl rfl
  | succ fuel ih =>
    cases htiles with
    | nil => exact absurd hlt (lt_irrefl e)
    | @cons _ _ ps hpos hrest =>
      have hname : (deName img pos).takeWhile (· ≠ 0) = deName img pos := by
        rw [List.takeWhile_eq_self_iff]
        intro c hc
        rw [decide_eq_true_eq]
        rintro rfl
        exact hnul pos List.mem_cons_self hc
      unfold removeEntries
      split
      · -- the call
        have hlength : (deName img pos).length = nameLen img pos := length_read ..
        rw [hname]
        dsimp only
        rw [if_pos hlength, hrec]
        · exact .inl rfl
        · rw [List.length_append, henv]
          exact Nat.le_add_left 256 _
      · dsimp only
        split
        · exact .inr rfl
        · rename_i hgo
          refine ih hrest ?_ fun q hq => hnul q (List.mem_cons_of_mem pos hq)
          refine lt_of_le_of_ne hrest.le fun heq => ?_
          rw [heq, hend] at hgo
          exact hgo rfl

/-- **No call of `remove_r` for an entry returns**, so the result stays 0. -/
theorem removeBlocks_idle {fuel index : ℕ}
    (hfirst : index = 0 → ∀ fuel, Idle img k
      (removeEntries env rec 0 fuel img k 0 (iBlock img n 0 * ext2BlockSize))) :
    Idle img k (removeBlocks env rec n fuel img k 0 index) := by
  induction fuel generalizing index with
  | zero => exact .inl rfl
  | succ fuel ih =>
    unfold removeBlocks
    split
    · have hround : Idle img k (removeEntries env rec index imageSize img k 0
          (iBlock img n index * ext2BlockSize)) := by
        by_cases hindex : index = 0
        · subst hindex
          exact hfirst rfl imageSize
        · exact removeEntries_later hindex
      rcases hround with hnone | hsome
      · rw [hnone]
        exact .inl rfl
      · rw [hsome]
        exact ih fun h => absurd h (Nat.succ_ne_zero index)
    · exact .inr rfl

/-- An environment in which the copied names do not end in time. -/
def longEnv : Env := ⟨0, fun _ => 0, fun _ => 0, fun _ => List.replicate 256 1⟩

/-- The loops of `remove_r` on a directory, when the names do not end. -/
theorem removeBlocks_long (hwf : Intact img) (hinit : init img = some t) (hnul : CStrings img)
    (hn : isDirectory img n = true) (rflag : Bool) (depth fuel : ℕ) :
    Idle img k (removeBlocks longEnv (removeR longEnv t rflag depth) n fuel img k 0 0) := by
  refine removeBlocks_idle fun _ fuel => ?_
  obtain ⟨b, bs, hlist, -⟩ := (hwf.wellFormed.dirOk n hn).dot
  have hb : b ∈ blockList img n := by
    rw [hlist]
    exact List.mem_cons_self
  have hfirst : iBlock img n 0 = b := by
    unfold blockList at hlist
    rw [List.range_succ_eq_map, List.map_cons, List.takeWhile_cons] at hlist
    split at hlist
    · exact (List.cons.inj hlist).1
    · cases hlist
  have hsize : ext2BlockSize = 1024 := rfl
  rw [hfirst]
  refine removeEntries_first (fun k n name hname => removeR_long hwf hinit hname _ _ _ _)
    (fun k => List.length_replicate ..) ?_ (hwf.blocks n hn b hb).1.tiles (by omega) fun q hq => ?_
  · simp [atBlockEnd, hsize]
  · exact hnul n hn q (List.mem_flatMap.2 ⟨b, hb, hq⟩)

/-! ## The entry of a file -/

/-- **No block becomes free** when an entry is taken out of a directory and a count decremented. -/
theorem marked_of_fileBranch (hwf : Intact img) (hdata : IsData img b)
    (hframe : Frame (blockBytes b) img img') (hn₁ : 1 ≤ n) (hn₂ : n ≤ sInodesCount img) (env : Env)
    (t : Tables) (hx : x ≤ sBlocksCount img) :
    marked (removeLink env t img' n) x = marked img x := by
  have hg := hwf.geometry
  have hblocks := hg.blocks
  obtain ⟨h, -⟩ := unlink_of_frame hg hdata hframe hn₁ hn₂ env t
  have hdisj : Disjoint (blockBytes (bgBlockBitmap img))
      (blockBytes b ∪ removeLinkBytes img n) := by
    refine Set.disjoint_union_right.2 ⟨disjoint_blockBytes hdata.blockBitmap.symm,
      Set.disjoint_union_right.2 ⟨?_, Set.disjoint_union_right.2 ⟨?_, ?_⟩⟩⟩
    · exact (disjoint_inodeField_blockBytes hn₁ hn₂ (by decide) hg.blockBitmap_table).symm
    · exact disjoint_blockBytes hg.bitmaps
    · exact disjoint_blockBytes_freeCounts hg.blockBitmap
  rw [marked, marked, h.shape.blockBitmap, bit_eq h.frame hdisj (by omega)]

/-- What `remove_r` does when the copied names do not end: it returns 1 only after the branch for
the entry of a file. -/
theorem removeR_one (hwf : Intact img) (hinit : init img = some t) (hnul : CStrings img)
    (hn : isDirectory img n = true) {depth k' : ℕ}
    (hrun : removeR longEnv t true depth img k n name = some (1, img', k')) :
    ∃ b pre q, IsData img b ∧ Frame (blockBytes b) img (unlinkEntry img (some pre) q) ∧
      img' = removeLink longEnv t (unlinkEntry img (some pre) q) n := by
  cases depth with
  | zero => cases hrun
  | succ depth =>
    have htiles : ∀ b ∈ t.dirs, BlockTiles img b := fun b hb => hwf.tiles hinit hb
    unfold removeR at hrun
    rw [findDirEntry, findPrePos, searchDirs_all htiles] at hrun
    cases hfound : findNamed t img name with
    | none =>
      rw [hfound] at hrun
      cases hrun
    | some f =>
      obtain ⟨pre, q⟩ := f
      rw [hfound] at hrun
      simp only [Option.map_some] at hrun
      split at hrun
      · obtain ⟨-, b, hb, hplace⟩ := findNamed_some hfound
        obtain ⟨m, hm, hbm⟩ := hwf.mem_dirs hinit hb
        obtain ⟨hok, hdata⟩ := hwf.blocks m hm b hbm
        obtain ⟨hq, hpre⟩ := mem_of_place hok hplace
        refine ⟨b, pre, q, hdata, unlinkEntry_blockFrame hok hq hpre, ?_⟩
        cases hrun
        rfl
      · split at hrun
        · have hzero : n ≠ 0 := Nat.one_le_iff_ne_zero.1 (isDirectory_range hn).1
          rw [if_neg hzero] at hrun
          rcases removeBlocks_long hwf hinit hnul hn true depth imageSize with hnone | hsome
          · rw [hnone] at hrun
            cases hrun
          · rw [hsome] at hrun
            dsimp only at hrun
            split at hrun
            · cases hrun
            · cases hrun
        · split at hrun
          · cases hrun
          · cases hrun

/-- A directory is not removed while its first block is marked. -/
theorem not_treeRemoved (hc : Consistent img)
    (hwalk : walk img ext2RootIno (tokens path) = some d) (hd : isDirectory img d = true)
    (hsame : ∀ x, IsData img x → x ≤ sBlocksCount img → marked img' x = marked img x) :
    ¬ TreeRemoved img img' d := by
  intro htree
  obtain ⟨x, xs, hlist, -⟩ := (hc.intact.wellFormed.dirOk d hd).dot
  have hx : x ∈ blockList img d := by
    rw [hlist]
    exact List.mem_cons_self
  obtain ⟨hdata, hle, hmarked⟩ := (hc.sound.dirs d (reach_of_walk hwalk hd)).data x hx
  have huse : inUse img d = true := by
    rw [isDirectory, Bool.and_eq_true] at hd
    exact hd.1
  have hfreed := (htree.freed d huse (hc.intact.onlyInside hd)).2 x
    (by rw [dataBlocks, if_pos hd]; exact hx) hle
  rw [hsame x hdata hle, hmarked] at hfreed
  cases hfreed

/-- It is not, when the names do not end. -/
theorem not_removesTree (hc : Consistent img) (hnul : CStrings img)
    (hwalk : walk img ext2RootIno (tokens path) = some d) (hd : isDirectory img d = true) :
    ¬ RemovesTreeIn longEnv img path d := by
  rintro ⟨o, hrun, hcode, htree⟩
  have hwf := hc.intact
  unfold rmBonus at hrun
  cases hchecks : rmChecks path img with
  | none =>
    rw [hchecks] at hrun
    cases hrun
  | some checked =>
    cases checked with
    | error e =>
      rw [hchecks] at hrun
      cases hrun
      exact rmChecks_code hchecks hcode
    | ok found =>
      obtain ⟨t, f⟩ := found
      rw [hchecks] at hrun
      obtain ⟨⟨result, im, k'⟩, hremove, rfl⟩ := Option.map_eq_some_iff.1 hrun
      obtain ⟨hinit, -, -, hpath, htraverse, hne⟩ := rmChecks_ok.1 hchecks
      -- the exit code is 0 only for the result 1
      obtain rfl : result = 1 := by
        dsimp only at hcode
        split at hcode
        · exact absurd hcode (show eisdir ≠ 0 by decide)
        · split at hcode
          · assumption
          · exact absurd hcode (show enoent ≠ 0 by decide)
      have hf : isDirectory img f = true := by
        rw [traversePath_eq hwf.wellFormed hinit hpath] at htraverse
        have hreached : reached img path = f := (if_neg hpath).trans (Option.some.inj htraverse)
        rw [← hreached] at hne ⊢
        exact reached_isDirectory hwalk hd hne
      obtain ⟨hf₁, hf₂⟩ := isDirectory_range hf
      obtain ⟨b, pre, q, hdata, hframe, rfl⟩ := removeR_one hwf hinit hnul hf hremove
      dsimp only at htree
      rw [if_neg (by decide), if_pos rfl] at htree
      refine not_treeRemoved hc hwalk hd (fun x _ hle => ?_) htree
      exact marked_of_fileBranch hwf hdata hframe hf₁ hf₂ longEnv t hle

/-! ## Whatever the memory holds

In the loops of `remove_r` the program may walk through the bytes of an image in which it has just
changed record lengths, and take what it finds for entries and inodes. It writes to none of them
before the inode table and before the blocks of the directories, apart from the inode bitmap and the
free counts. -/

/-- The block bitmap comes before the inode table and before the blocks of the directories. -/
structure BitmapFirst (img : Image) : Prop where
  table : bgBlockBitmap img < bgInodeTable img
  dirs : ∀ n, isDirectory img n = true → ∀ b ∈ blockList img n, bgBlockBitmap img < b

/-- Where the regions are, and the bits of the blocks of the image. -/
def settled (img : Image) : Set ℕ :=
  header ∪ Set.Ico (bgBlockBitmap img * ext2BlockSize) (bgBlockBitmap img * ext2BlockSize + 16)

/-- The bytes from here on may be written to. -/
theorem not_mem_settled (hg : Geometry img) {i : ℕ}
    (hi : (bgBlockBitmap img + 1) * ext2BlockSize ≤ i + 128) : i ∉ settled img := by
  have hthree := hg.blockBitmap
  have hsize : ext2BlockSize = 1024 := rfl
  rw [hsize] at hi
  simp only [settled, header, hsize, Set.mem_union, Set.mem_Ico]
  omega

theorem settled_shape (h : Frame (settled img)ᶜ img img') : SameShape img img' :=
  .of_frame h (Set.disjoint_compl_left_iff_subset.2 Set.subset_union_left)

theorem settled_unlinkEntry (hg : Geometry img) {im : Image} {pre : Option ℕ}
    (hpre : ∀ p ∈ pre, (bgBlockBitmap img + 1) * ext2BlockSize ≤ p)
    (hq : (bgBlockBitmap img + 1) * ext2BlockSize ≤ q) (h : Frame (settled img)ᶜ img im) :
    Frame (settled img)ᶜ img (unlinkEntry im pre q) := by
  have hout : ∀ i, q ≤ i → i < q + 4 → i ∈ (settled img)ᶜ := fun i hi _ =>
    not_mem_settled hg (by omega)
  cases pre with
  | none => exact h.store hout
  | some p =>
    have hp := hpre p rfl
    exact (h.store fun i hi _ => not_mem_settled hg (by omega)).store hout

/-- Whatever number `remove_link` is called with. -/
theorem settled_removeLink (hg : Geometry img) (hfirst : bgBlockBitmap img < bgInodeTable img)
    (env : Env) (t : Tables) (n : ℕ) {im : Image} (h : Frame (settled img)ᶜ img im) :
    Frame (settled img)ᶜ img (removeLink env t im n) := by
  have hsize : ext2BlockSize = 1024 := rfl
  have hthree := hg.inodeBitmap
  have hfield : ∀ {im : Image} (k m v : ℕ), Frame (settled img)ᶜ img im →
      Frame (settled img)ᶜ img (store im (inodeAddr im n + k) m v) := by
    intro im k m v h
    refine h.store fun i hi _ => not_mem_settled hg ?_
    have haddr := (settled_shape h).inodeAddr_eq n
    rw [inodeAddr_def img, hsize] at haddr
    rw [hsize]
    omega
  have hclear : ∀ {im : Image} {i : ℕ} (v : ℕ), Frame (settled img)ᶜ img im →
      i < sInodesCount im → Frame (settled img)ᶜ img
        (setBgFreeInodesCount (clearBit im (bgInodeBitmap im) i) v) := by
    intro im i v h hi
    have hs := settled_shape h
    have hcount := hg.inodes
    have hne := hg.bitmaps
    have hblock := hg.blockBitmap
    rw [hs.inodes] at hi
    rw [hs.inodeBitmap]
    refine (h.update ?_).store fun j hj hlt => ?_
    all_goals
      simp only [settled, header, hsize, Set.mem_compl_iff, Set.mem_union, Set.mem_Ico]
      omega
  unfold removeLink
  split
  · dsimp only
    split
    · split
      · rename_i i hfind
        exact hclear _ (hfield _ _ _ h) (List.mem_range.1 (List.mem_of_find?_eq_some hfind))
      · exact hfield _ _ _ (hfield _ _ _ h)
    · exact hfield _ _ _ (hfield _ _ _ h)
  · exact hfield _ _ _ h

/-- What the search finds in the listed blocks is not before all of them. -/
theorem le_of_searchDirs {entered found : ℕ → Bool} {dirs : List ℕ} {m : ℕ}
    (hdirs : ∀ b ∈ dirs, m ≤ b * ext2BlockSize)
    (h : searchDirs img entered found dirs = some (some (n, q))) : m ≤ n ∧ m ≤ q := by
  induction dirs with
  | nil => cases h
  | cons b dirs ih =>
    have hb := hdirs b List.mem_cons_self
    have hrest : ∀ b ∈ dirs, m ≤ b * ext2BlockSize := fun b hb =>
      hdirs b (List.mem_cons_of_mem _ hb)
    rw [searchDirs] at h
    split at h
    · split at h
      · cases h
      · rename_i hscan
        cases h
        exact le_of_scan hb hb hscan
      · exact ih hrest h
    · exact ih hrest h

section Loops

variable {Kept : Image → Prop} (hrec : ∀ {im im' : Image} {k k' n r : ℕ} {name : Name}, Kept im →
  rec im k n name = some (r, im', k') → Kept im')
include hrec

/-- The loop over the entries keeps what every call keeps, -/
theorem removeEntries_keeps {index fuel result r k' : ℕ} (h : Kept img)
    (hrun : removeEntries env rec index fuel img k result pos = some (r, img', k')) :
    Kept img' := by
  induction fuel generalizing img k result pos with
  | zero => cases hrun
  | succ fuel ih =>
    unfold removeEntries at hrun
    dsimp only at hrun
    split at hrun
    · cases hrun
    · rename_i result' img₁ k₁ hcalled
      have hkept : Kept img₁ := by
        split at hcalled
        · exact hrec h hcalled
        · cases hcalled
          exact h
      split at hrun
      · cases hrun
        exact hkept
      · exact ih hkept hrun

/-- and so does the loop over the blocks. -/
theorem removeBlocks_keeps {fuel result index r k' : ℕ} (h : Kept img)
    (hrun : removeBlocks env rec n fuel img k result index = some (r, img', k')) :
    Kept img' := by
  induction fuel generalizing img k result index with
  | zero => cases hrun
  | succ fuel ih =>
    unfold removeBlocks at hrun
    split at hrun
    · split at hrun
      · cases hrun
      · rename_i hentries
        exact ih (removeEntries_keeps hrec h hentries) hrun
    · cases hrun
      exact h

end Loops

theorem le_of_findDirEntry {m : ℕ} (hdirs : ∀ b ∈ t.dirs, m ≤ b * ext2BlockSize)
    (h : findDirEntry t img n name = some (some q)) : m ≤ q := by
  obtain ⟨_, hsearch, hfound⟩ := Option.map_eq_some_iff.1 h
  obtain ⟨⟨p, _⟩, rfl, rfl⟩ := Option.map_eq_some_iff.1 hfound
  exact (le_of_searchDirs hdirs hsearch).2

theorem le_of_findPrePos {m p : ℕ} {pre : Option ℕ}
    (hdirs : ∀ b ∈ t.dirs, m ≤ b * ext2BlockSize)
    (h : findPrePos t img n name = some pre) (hp : p ∈ pre) : m ≤ p := by
  obtain ⟨_, hsearch, rfl⟩ := Option.map_eq_some_iff.1 h
  obtain ⟨⟨_, q⟩, rfl, rfl⟩ := Option.map_eq_some_iff.1 (Option.mem_def.1 hp)
  exact (le_of_searchDirs hdirs hsearch).1

/-- **`remove_r` leaves the bits of the blocks as they are**, whatever it is called with. -/
theorem settled_removeR (hg : Geometry img) (hfirst : bgBlockBitmap img < bgInodeTable img)
    (hdirs : ∀ b ∈ t.dirs, bgBlockBitmap img < b) {rflag : Bool} {depth r k' : ℕ} {im im' : Image}
    (h : Frame (settled img)ᶜ img im)
    (hrun : removeR env t rflag depth im k n name = some (r, im', k')) :
    Frame (settled img)ᶜ img im' := by
  have hle : ∀ b ∈ t.dirs, (bgBlockBitmap img + 1) * ext2BlockSize ≤ b * ext2BlockSize :=
    fun b hb => Nat.mul_le_mul_right _ (hdirs b hb)
  induction depth generalizing im im' k k' n r name with
  | zero => cases hrun
  | succ depth ih =>
    -- the end of both branches that change the image
    have hend : ∀ {im₁ im₂ : Image} {pre : Option ℕ} {q : ℕ}, Frame (settled img)ᶜ img im₁ →
        findDirEntry t im n name = some (some q) → findPrePos t im₂ n name = some pre →
        Frame (settled img)ᶜ img (removeLink env t (unlinkEntry im₁ pre q) n) :=
      fun h hq hpre => settled_removeLink hg hfirst env t n (settled_unlinkEntry hg
        (fun p hp => le_of_findPrePos hle hpre hp) (le_of_findDirEntry hle hq) h)
    unfold removeR at hrun
    split at hrun
    · rename_i q hq
      split at hrun
      · split at hrun
        · cases hrun
        · rename_i hpre
          cases hrun
          exact hend h hq hpre
      · split at hrun
        · split at hrun
          · cases hrun
          · split at hrun
            · cases hrun
            · rename_i hblocks
              have hkept := removeBlocks_keeps (fun h hrun => ih h hrun) h hblocks
              split at hrun
              · cases hrun
              · rename_i hpre
                cases hrun
                exact hend hkept hq hpre
        · split at hrun
          · cases hrun
            exact h
          · cases hrun
            exact h
    · cases hrun

/-- **No block becomes free.** -/
theorem rmBonus_marked (hc : Consistent img) (hfirst : BitmapFirst img) {rflag : Bool} {o : Outcome}
    (hrun : rmBonus env rflag path img = some o) (hx : IsData img x) :
    marked o.img x = marked img x := by
  rcases rmBonus_some hrun with heq | ⟨t, f, result, k, hchecks, hremove⟩
  · rw [heq]
  have hframe : Frame (settled img)ᶜ img o.img := by
    refine settled_removeR hc.sound.geometry hfirst.table (fun b hb => ?_) (.refl _ img) hremove
    obtain ⟨m, hm, hbm⟩ := hc.intact.mem_dirs (rmChecks_ok.1 hchecks).1 hb
    exact hfirst.dirs m hm b hbm
  have hin := hx.inside
  have hsize : ext2BlockSize = 1024 := rfl
  have himage : imageSize = 131072 := rfl
  rw [InImage, hsize, himage] at hin
  have hbyte : bgBlockBitmap img * ext2BlockSize + (x - 1) / 8 ∉ (settled img)ᶜ := by
    rw [Set.notMem_compl_iff]
    refine .inr (Set.mem_Ico.2 ⟨by omega, by omega⟩)
  rw [marked, marked, (settled_shape hframe).blockBitmap, bit, bit, hframe _ hbyte]

/-- **`ext2_rm_bonus -r` never removes a directory** as it should: not in every memory, and in none
if the block bitmap comes first. -/
theorem rmBonus_never (hc : Consistent img) (hnul : CStrings img)
    (hwalk : walk img ext2RootIno (tokens path) = some d) (hd : isDirectory img d = true) :
    ¬ RemovesTree img path d ∧ (BitmapFirst img → ∀ env, ¬ RemovesTreeIn env img path d) := by
  refine ⟨fun h => not_removesTree hc hnul hwalk hd (h longEnv), ?_⟩
  rintro hfirst env ⟨o, hrun, -, htree⟩
  exact not_treeRemoved hc hwalk hd (fun x hx _ => rmBonus_marked hc hfirst hrun hx) htree

theorem exImage_bitmapFirst : BitmapFirst exImage where
  table := by decide +kernel
  dirs := by
    have hall : ∀ n ∈ [2, 12, 13], ∀ b ∈ blockList exImage n, bgBlockBitmap exImage < b := by
      decide +kernel
    exact fun n hn => hall n (by simpa using exImage_isDirectory hn)

theorem exImage_cStrings : CStrings exImage := by
  have hall : ∀ n ∈ [2, 12, 13], ∀ q ∈ dirEntries exImage n, 0 ∉ deName exImage q := by
    decide +kernel
  exact fun n hn => hall n (by simpa using exImage_isDirectory hn)

/-- The directory `/a`. -/
theorem rmBonus_never_a : ¬ RemovesTree exImage [47, 97] 12 ∧
    ∀ env, ¬ RemovesTreeIn env exImage [47, 97] 12 := by
  obtain ⟨hsome, hall⟩ : ¬ RemovesTree exImage [47, 97] 12 ∧
      (BitmapFirst exImage → ∀ env, ¬ RemovesTreeIn env exImage [47, 97] 12) :=
    rmBonus_never exImage_consistent exImage_cStrings (by decide +kernel) (by decide +kernel)
  exact ⟨hsome, hall exImage_bitmapFirst⟩

/-- For `/a/b/a` it is the directory `/a` that goes, also when all names end; `/a/b` keeps its
block, and the exit code is `ENOENT`. -/
theorem rmBonus_wrong : Intact exSectors ∧ Sectors exSectors ∧
    walk exSectors ext2RootIno (tokens [47, 97, 47, 98]) = some 13 ∧
    isDirectory exSectors 13 = true ∧
    (rmBonus exEnv true [47, 97, 47, 98] exSectors).map (fun o =>
      (o.code, walk o.img ext2RootIno [[97]], marked o.img 11)) = some (enoent, none, true) ∧
    ¬ RemovesTree exSectors [47, 97, 47, 98] 13 := by
  have hrun : (rmBonus exEnv true [47, 97, 47, 98] exSectors).map (fun o =>
      (o.code, walk o.img ext2RootIno [[97]], marked o.img 11)) = some (enoent, none, true) := by
    decide +kernel
  refine ⟨exSectors_intact, exSectors_sectors, by decide +kernel, by decide +kernel, hrun,
    fun h => ?_⟩
  obtain ⟨o, ho, hcode, -⟩ := h exEnv
  rw [ho, Option.map_some, Option.some.injEq, Prod.mk.injEq, hcode] at hrun
  exact absurd hrun.1 (by decide)

end Cscc69.Ext2
