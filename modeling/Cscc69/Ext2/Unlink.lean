import Cscc69.Ext2.Traverse
import Cscc69.Ext2.Entries

/-!
# Removing a file

`ext2_rm` looks for the file three times. `traverse` follows the path to an inode;
`find_dir_entry` and `find_pre_pos` look for the first entry of that name in any of the listed
blocks, used or not. The entry is taken out, and the count of the inode is decremented. It is the
entry at the path, and its inode, when the path is straight and no entry of that name comes first
(`Found`).

Main result: `rm_unlinks_iff`.
-/

namespace Cscc69.Ext2

open Bytes Records

variable {img img' : Image} {n m b pos pre p r : ℕ} {name path : Name} {t : Tables} {env : Env}

/-! ## The checks -/

theorem Checked.andThen_some {α : Type} {c : Checked α} {go : α → Option Outcome} {o : Outcome}
    (h : c.andThen img go = some o) : o.img = img ∨ ∃ a, c = some (.ok a) ∧ go a = some o := by
  unfold Checked.andThen at h
  split at h
  · cases h
  · exact .inl (congrArg Outcome.img (Option.some.inj h)).symm
  · rename_i a
    exact .inr ⟨a, rfl, h⟩

theorem rmChecks_ok : rmChecks path img = some (.ok (t, r)) ↔
    init img = some t ∧ path ≠ [slash] ∧ ¬ (basename path = [dot] ∨ basename path = [dot, dot]) ∧
      tokens path ≠ [] ∧ traversePath t img (tokens path) (basename path) = some r ∧ r ≠ 0 := by
  constructor
  · intro h
    unfold rmChecks at h
    split at h
    · cases h
    · rename_i t' hinit
      simp only at h
      split at h
      · cases h
      · rename_i hslash
        split at h
        · cases h
        · rename_i hdots
          split at h
          · cases h
          · rename_i htokens
            split at h
            · cases h
            · cases h
            · rename_i r' hne htraverse
              cases h
              exact ⟨hinit, hslash, hdots, htokens, htraverse, hne⟩
  · intro h
    obtain ⟨hinit, hslash, hdots, htokens, htraverse, hne⟩ := h
    obtain ⟨r, rfl⟩ := Nat.exists_eq_succ_of_ne_zero hne
    simp only [rmChecks, hinit, if_neg hslash, if_neg hdots, if_neg htokens, htraverse]

/-! ## The entry that is found -/

/-- The first entry of that name in the listed blocks, and the one before it. -/
def findNamed (t : Tables) (img : Image) (name : Name) : Option (ℕ × ℕ) :=
  t.dirs.findSome? fun b =>
    findPair (namesEntry img name) (b * ext2BlockSize) (blockEntries img b)

theorem searchDirs_all (htiles : ∀ b ∈ t.dirs, BlockTiles img b) (name : Name) :
    searchDirs img (fun _ => true) (namesEntry img name) t.dirs = some (findNamed t img name) := by
  rw [searchDirs_eq fun b hb _ => htiles b hb, List.filter_true]
  rfl

/-- **The end of `ext2_rm`.** -/
theorem rmFile_eq (htiles : ∀ b ∈ t.dirs, BlockTiles img b) (env : Env) (r : ℕ) (name : Name) :
    rmFile env t img r name = (findNamed t img name).map fun f =>
      if IsFileEntry img f.2 then
        ⟨0, "", removeLink env t (unlinkEntry img (some f.1) f.2) r⟩
      else ⟨eisdir, dirErr, img⟩ := by
  rw [rmFile, findDirEntry, findPrePos, searchDirs_all htiles]
  cases findNamed t img name with
  | none => rfl
  | some f =>
    simp only [Option.map_some]
    split
    · rfl
    · rfl

theorem findNamed_some (h : findNamed t img name = some (pre, pos)) :
    deName img pos = name ∧ ∃ b ∈ t.dirs,
      (∃ bs, blockEntries img b = pos :: bs ∧ pre = b * ext2BlockSize) ∨
      ∃ as bs, blockEntries img b = as ++ pre :: pos :: bs := by
  obtain ⟨b, hb, hpair⟩ := List.exists_of_findSome?_eq_some h
  obtain ⟨hname, hcases⟩ := findPair_some hpair
  exact ⟨namesEntry_iff.1 hname, b, hb, hcases⟩

theorem mem_of_place {q : ℕ} (hok : BlockOk img b)
    (h : (∃ cs, blockEntries img b = q :: cs ∧ pre = b * ext2BlockSize) ∨
      ∃ as cs, blockEntries img b = as ++ pre :: q :: cs) :
    q ∈ blockEntries img b ∧ pre ∈ blockEntries img b := by
  rcases h with ⟨cs, hcs, rfl⟩ | ⟨as, cs, hcs⟩
  · obtain ⟨ps, hps⟩ := hok.first
    exact ⟨by simp [hcs], by simp [hps]⟩
  · exact ⟨by simp [hcs], by simp [hcs]⟩

/-- What a run of `ext2_rm` does that changes the image. -/
theorem rm_cases (htiles : ∀ t, init img = some t → ∀ b ∈ t.dirs, BlockTiles img b) {o : Outcome}
    (h : rm env path img = some o) :
    o.img = img ∨ ∃ t r pre q, rmChecks path img = some (.ok (t, r)) ∧
      findNamed t img (basename path) = some (pre, q) ∧ IsFileEntry img q ∧
      o.img = removeLink env t (unlinkEntry img (some pre) q) r := by
  rcases Checked.andThen_some h with heq | ⟨⟨t, r⟩, hchecks, hrm⟩
  · exact .inl heq
  · change rmFile env t img r (basename path) = some o at hrm
    rw [rmFile_eq (htiles t (rmChecks_ok.1 hchecks).1)] at hrm
    obtain ⟨⟨pre, q⟩, hfound, hrm⟩ := Option.map_eq_some_iff.1 hrm
    simp only at hrm
    split at hrm
    · rename_i hfile
      rw [← hrm]
      exact .inr ⟨t, r, pre, q, hchecks, hfound, hfile, rfl⟩
    · rw [← hrm]
      exact .inl rfl

/-! ## Taking the entry out and decrementing the count -/

/-- A block of a directory or of a file is none that `remove_link` writes to. -/
theorem disjoint_blockBytes_removeLink (hb : IsData img b) (h₁ : 1 ≤ r)
    (h₂ : r ≤ sInodesCount img) : Disjoint (blockBytes b) (removeLinkBytes img r) := by
  refine Set.disjoint_union_right.2 ⟨?_, Set.disjoint_union_right.2 ⟨?_, ?_⟩⟩
  · exact (disjoint_inodeField_blockBytes h₁ h₂ (by decide) (hb.table)).symm
  · exact disjoint_blockBytes hb.inodeBitmap
  · exact disjoint_blockBytes_freeCounts hb.three_le

/-- The fields of an inode that taking an entry out of a block leaves alone. -/
theorem disjoint_inodeField_unlink {off len : ℕ} (hg : Geometry img) (hb : IsData img b)
    (hn₁ : 1 ≤ n) (hn₂ : n ≤ sInodesCount img) (h₁ : 1 ≤ r) (hlen : off + len ≤ 128)
    (h : n ≠ r ∨ off + len ≤ 20 ∨ 28 ≤ off) :
    Disjoint (inodeField img n off len) (blockBytes b ∪ removeLinkBytes img r) := by
  refine Set.disjoint_union_right.2 ⟨disjoint_inodeField_blockBytes hn₁ hn₂ hlen hb.table, ?_⟩
  refine Set.disjoint_union_right.2 ⟨?_, Set.disjoint_union_right.2 ⟨?_, ?_⟩⟩
  · exact disjoint_inodeField hn₁ h₁ hlen (by decide) (h.imp_right fun h => h)
  · exact disjoint_inodeField_blockBytes hn₁ hn₂ hlen hg.inodeBitmap_table
  · exact disjoint_inodeField_freeCounts hg hn₁ hn₂ hlen

/-- Block `b` has been changed, and then the count of inode `r` has been decremented. -/
structure Unlink (img img' : Image) (b r : ℕ) : Prop where
  frame : Frame (blockBytes b ∪ removeLinkBytes img r) img img'
  shape : SameShape img img'
  links : iLinksCount img' r = iLinksCount img r - 1
  bits : ∀ k < 8192, bit img' (bgInodeBitmap img) k = true → bit img (bgInodeBitmap img) k = true

theorem unlink_of_frame (hg : Geometry img) (hb : IsData img b)
    (hframe : Frame (blockBytes b) img img') (h₁ : 1 ≤ r) (h₂ : r ≤ sInodesCount img) (env : Env)
    (t : Tables) :
    Unlink img (removeLink env t img' r) b r ∧
      Agree img' (removeLink env t img' r) (b * ext2BlockSize)
        (b * ext2BlockSize + ext2BlockSize) := by
  have hs : SameShape img img' := .of_frame hframe (disjoint_blockBytes_header hb.three_le)
  have hg' := hs.geometry hg
  have h₂' : r ≤ sInodesCount img' := by rw [hs.inodes]; exact h₂
  have hbytes : removeLinkBytes img' r = removeLinkBytes img r := by
    rw [removeLinkBytes, removeLinkBytes, hs.inodeField_eq, hs.inodeBitmap]
  have hlink := removeLink_frame env t hg' h₁ h₂'
  rw [hbytes] at hlink
  refine ⟨⟨?_, hs.trans (removeLink_shape env t hg' h₁ h₂'), ?_, fun k hk hbit => ?_⟩, ?_⟩
  · exact (hframe.mono Set.subset_union_left).trans (hlink.mono Set.subset_union_right)
  · rw [removeLink_links env t hg' h₁ h₂']
    congr 1
    exact iLinksCount_eq hframe hs (disjoint_inodeField_blockBytes h₁ h₂ (by decide) hb.table)
  · rw [← hs.inodeBitmap] at hbit
    have hbit' := removeLink_bit hg' h₁ h₂' hk hbit
    rw [hs.inodeBitmap] at hbit'
    rw [← bit_eq hframe (disjoint_blockBytes hb.inodeBitmap.symm) hk]
    exact hbit'
  · exact agree_blockBytes hlink (disjoint_blockBytes_removeLink hb h₁ h₂)

/-- The two entries that `unlinkEntry` writes to are in block `b`. -/
theorem unlinkEntry_blockFrame {q : ℕ} (hok : BlockOk img b) (hq : q ∈ blockEntries img b)
    (hpre : pre ∈ blockEntries img b) :
    Frame (blockBytes b) img (unlinkEntry img (some pre) q) := by
  have hsize : ext2BlockSize = 1024 := rfl
  have h₁ := hok.mem hq
  have h₂ := hok.mem hpre
  have hlong₁ := hok.long q hq
  have hlong₂ := hok.long pre hpre
  refine (unlinkEntry_frame img pre q).mono fun i hi => ?_
  simp only [unlinkBytes, blockBytes, Set.mem_union, Set.mem_Ico] at hi ⊢
  omega

/-! ## Intact images -/

/-- A regular file or a symbolic link. -/
def IsFile (img : Image) (n : ℕ) : Prop :=
  modeType (iMode img n) = ext2SIfreg ∨ modeType (iMode img n) = ext2SIflnk

/-- A well-formed image whose regions stand apart, whose directory blocks are in order, and whose
used entries name linked inodes of the type they say, with `.` and `..` naming no file. -/
structure Intact (img : Image) : Prop where
  wellFormed : WellFormed img
  geometry : Geometry img
  blocks : ∀ n, isDirectory img n = true → ∀ b ∈ blockList img n, BlockOk img b ∧ IsData img b
  named : ∀ n, isDirectory img n = true → ∀ pos ∈ dirEntries img n, isLive img pos = true →
    deInode img pos ≤ sInodesCount img ∧ 1 ≤ iLinksCount img (deInode img pos)
  types : ∀ n, isDirectory img n = true → ∀ pos ∈ dirEntries img n, isLive img pos = true →
    (IsFileEntry img pos ↔ IsFile img (deInode img pos))
  dots : ∀ n, isDirectory img n = true → ∀ pos ∈ dirEntries img n, isLive img pos = true →
    deName img pos = [dot] ∨ deName img pos = [dot, dot] → ¬ IsFile img (deInode img pos)

/-- The used entry of that name in directory `n`. -/
def liveNamed (img : Image) (n : ℕ) (name : Name) : Option ℕ :=
  (dirEntries img n).find? fun pos => isLive img pos && deName img pos == name

/-- The path leads to the entry at `pos`, in directory `p`. -/
structure PathEntry (img : Image) (path : Name) (p pos : ℕ) : Prop where
  nonempty : tokens path ≠ []
  parent : walk img ext2RootIno (tokens path).dropLast = some p
  directory : isDirectory img p = true
  entry : liveNamed img p (basename path) = some pos

/-- The used entries of a directory in order, with what they say. -/
def liveEntries (img : Image) (n : ℕ) : List (ℕ × DirEntry) :=
  ((dirEntries img n).filter (isLive img)).map fun pos => (pos, entryAt img pos)

/-- Of all directory entries of `img` exactly the one at `pos`, in directory `p`, has gone, and the
count of its inode has been decremented. -/
structure Unlinks (img img' : Image) (p pos : ℕ) : Prop where
  parent : liveEntries img' p = (liveEntries img p).filter fun e => e.1 ≠ pos
  others : ∀ n, isDirectory img n = true → ∀ b ∈ blockList img n, pos ∉ blockEntries img b →
    Agree img img' (b * ext2BlockSize) (b * ext2BlockSize + ext2BlockSize)
  tiles : ∀ n, isDirectory img n = true → ∀ b ∈ blockList img n, BlockTiles img' b
  decremented : iLinksCount img' (deInode img pos) = iLinksCount img (deInode img pos) - 1
  kept : ∀ n, 1 ≤ n → n ≤ sInodesCount img → n ≠ deInode img pos →
    iLinksCount img' n = iLinksCount img n

/-- `init` does not overrun its arrays, the path is straight, and the first entry of the name in
the listed directories, used or not, is the one at `pos`. -/
structure Found (img : Image) (path : Name) (pos : ℕ) : Prop where
  init : (init img).isSome = true
  straight : Straight img path
  first : ((listedDirs img).flatMap (dirEntries img)).find?
    (fun q => deName img q == basename path) = some pos

theorem walk_append (img : Image) (n : ℕ) (as bs : List Name) :
    walk img n (as ++ bs) = (walk img n as).bind fun m => walk img m bs := by
  induction as generalizing n with
  | nil => rfl
  | cons a as ih =>
    rw [List.cons_append, walk_cons, walk_cons, Option.bind_assoc]
    congr 1
    funext m
    exact ih m

theorem PathEntry.live (h : PathEntry img path p pos) :
    pos ∈ dirEntries img p ∧ isLive img pos = true ∧ deName img pos = basename path := by
  have hfound := List.find?_some h.entry
  rw [Bool.and_eq_true, beq_iff_eq] at hfound
  exact ⟨List.mem_of_find?_eq_some h.entry, hfound⟩

theorem PathEntry.tokens_eq (h : PathEntry img path p pos) :
    tokens path = (tokens path).dropLast ++ [basename path] := by
  rw [basename, List.getLast?_eq_some_getLast h.nonempty, Option.getD_some,
    List.dropLast_append_getLast]

theorem PathEntry.lookup (h : PathEntry img path p pos) :
    lookup img p (basename path) = some (deInode img pos) := by
  have hentry := h.entry
  unfold liveNamed at hentry
  rw [Ext2.lookup, if_pos h.directory, hentry, Option.map_some]

/-- The walk along the path leads to the inode of the entry. -/
theorem PathEntry.walk (h : PathEntry img path p pos) :
    walk img ext2RootIno (tokens path) = some (deInode img pos) := by
  rw [h.tokens_eq, walk_append, h.parent, Option.bind_some, walk_cons, h.lookup]
  rfl

theorem deInode_ne_zero (h : isLive img pos = true) : deInode img pos ≠ 0 := by
  simpa [isLive] using h

/-- The block of an entry. -/
theorem mem_dirEntries (hpos : pos ∈ dirEntries img n) :
    ∃ b ∈ blockList img n, pos ∈ blockEntries img b := List.mem_flatMap.1 hpos

theorem isDirectory_range (h : isDirectory img n = true) : 1 ≤ n ∧ n ≤ sInodesCount img := by
  simp only [isDirectory, inUse, Bool.and_eq_true, decide_eq_true_eq] at h
  exact h.1.1

/-- A walk of at least one component leads to a named inode. -/
theorem walk_named {names : List Name} (hne : names ≠ []) (h : walk img n names = some m) :
    ∃ d pos, isDirectory img d = true ∧ pos ∈ dirEntries img d ∧ isLive img pos = true ∧
      deInode img pos = m := by
  induction names generalizing n with
  | nil => exact absurd rfl hne
  | cons name names ih =>
    rw [walk_cons] at h
    obtain ⟨m', hlookup, hwalk⟩ := Option.bind_eq_some_iff.1 h
    cases names with
    | cons name' names' => exact ih (by simp) hwalk
    | nil =>
      obtain rfl : m' = m := Option.some.inj hwalk
      obtain ⟨hdir, pos, hpos, hlive, hino⟩ := lookup_entry hlookup
      exact ⟨n, pos, hdir, hpos, hlive, hino⟩

/-! ## What removing an entry means -/

theorem filter_ne_of_nodup {as bs : List ℕ} (h : (as ++ pre :: pos :: bs).Nodup) :
    (as ++ pre :: pos :: bs).filter (· ≠ pos) = as ++ pre :: bs := by
  have hne : ∀ r ∈ as ++ pre :: bs, r ≠ pos := by
    rintro r hr rfl
    grind
  have hsplit : (as ++ pre :: pos :: bs).filter (· ≠ pos) =
      (as ++ pre :: bs).filter (· ≠ pos) := by
    simp [List.filter_append, List.filter_cons]
  rw [hsplit, List.filter_eq_self]
  intro r hr
  exact decide_eq_true (hne r hr)

theorem isLive_of_entryAt (h : entryAt img' pos = entryAt img pos) :
    isLive img' pos = isLive img pos := by
  rw [isLive, isLive, deInode_of_entryAt h]

/-- The used entries of a block, with what they say. -/
def liveBlock (img : Image) (b : ℕ) : List (ℕ × DirEntry) :=
  ((blockEntries img b).filter (isLive img)).map fun pos => (pos, entryAt img pos)

theorem liveEntries_eq (img : Image) (n : ℕ) :
    liveEntries img n = (blockList img n).flatMap (liveBlock img) := by
  rw [liveEntries, dirEntries, List.filter_flatMap, List.map_flatMap]
  rfl

/-- The used entries of the block that loses one. -/
theorem Removed.liveBlock {as bs : List ℕ} (hok : BlockOk img b)
    (h : Removed img img' b as pre pos bs) :
    liveBlock img' b = (liveBlock img b).filter fun e => e.1 ≠ pos := by
  have hsame := h.same
  have hfilter : (as ++ pre :: bs).filter (isLive img') =
      (as ++ pre :: bs).filter (isLive img) :=
    List.filter_congr fun r hr => isLive_of_entryAt (hsame r hr)
  have hmap : ((as ++ pre :: bs).filter (isLive img)).map (fun r => (r, entryAt img' r)) =
      ((as ++ pre :: bs).filter (isLive img)).map fun r => (r, entryAt img r) :=
    List.map_congr_left fun r hr => by rw [hsame r (List.mem_of_mem_filter hr)]
  have hnodup : (as ++ pre :: pos :: bs).Nodup := h.before ▸ hok.tiles.nodup
  rw [Ext2.liveBlock, Ext2.liveBlock, h.after, h.before, hfilter, hmap, List.filter_map,
    ← filter_ne_of_nodup hnodup, List.filter_filter, List.filter_filter]
  congr 2
  funext r
  exact Bool.and_comm _ _

/-- The used entries of any other block. -/
theorem BlockOk.liveBlock_congr (hok : BlockOk img b)
    (hag : Agree img img' (b * ext2BlockSize) (b * ext2BlockSize + ext2BlockSize)) :
    liveBlock img' b = liveBlock img b := by
  obtain ⟨-, hlist, hsame, -⟩ := hok.congr hag
  have hfilter : (blockEntries img b).filter (isLive img') =
      (blockEntries img b).filter (isLive img) :=
    List.filter_congr fun r hr => isLive_of_entryAt (hsame r hr)
  rw [liveBlock, liveBlock, hlist, hfilter]
  exact List.map_congr_left fun r hr => by rw [hsame r (List.mem_of_mem_filter hr)]

/-- Taking the entry of a directory out, with the link to its inode, leaves the rest as it was. -/
theorem Unlink.unlinks {as bs : List ℕ} (hwf : Intact img) (hp : isDirectory img p = true)
    (hb : b ∈ blockList img p) (hlive : isLive img pos = true)
    (h : Unlink img img' b (deInode img pos)) (hrem : Removed img img' b as pre pos bs) :
    Unlinks img img' p pos := by
  have hg := hwf.geometry
  obtain ⟨hok, hdata⟩ := hwf.blocks p hp b hb
  have hposb : pos ∈ blockEntries img b := by simp [hrem.before]
  have hm₁ : 1 ≤ deInode img pos := Nat.one_le_iff_ne_zero.2 (deInode_ne_zero hlive)
  have hm₂ := (hwf.named p hp pos (List.mem_flatMap.2 ⟨b, hb, hposb⟩) hlive).1
  have hlist : blockList img' p = blockList img p := by
    obtain ⟨hp₁, hp₂⟩ := isDirectory_range hp
    exact blockList_eq h.frame h.shape
      (disjoint_inodeField_unlink hg hdata hp₁ hp₂ hm₁ (by decide) (.inr (.inr (by decide))))
  have hagree : ∀ n, isDirectory img n = true → ∀ k ∈ blockList img n, k ≠ b →
      Agree img img' (k * ext2BlockSize) (k * ext2BlockSize + ext2BlockSize) := by
    intro n hn k hk hne
    have hkdata := (hwf.blocks n hn k hk).2
    exact agree_blockBytes h.frame (Set.disjoint_union_right.2 ⟨disjoint_blockBytes hne,
      disjoint_blockBytes_removeLink hkdata hm₁ hm₂⟩)
  refine ⟨?_, fun n hn k hk hno => ?_, fun n hn k hk => ?_, h.links, fun n h₁ h₂ hne => ?_⟩
  · rw [liveEntries_eq, liveEntries_eq, hlist, List.filter_flatMap]
    apply List.flatMap_congr
    intro k hk
    by_cases hkb : k = b
    · subst hkb
      exact hrem.liveBlock hok
    · have hkok := (hwf.blocks p hp k hk).1
      rw [hkok.liveBlock_congr (hagree p hp k hk hkb), eq_comm, List.filter_eq_self]
      intro e he
      obtain ⟨r, hr, rfl⟩ := List.mem_map.1 he
      refine decide_eq_true fun heq => hkb ?_
      have hr' : r = pos := heq
      rw [← hkok.div_eq (List.mem_of_mem_filter hr), ← hok.div_eq hposb, hr']
  · refine hagree n hn k hk fun heq => hno ?_
    rw [heq]
    exact hposb
  · by_cases heq : k = b
    · rw [heq]
      exact hrem.ok.tiles
    · exact ((hwf.blocks n hn k hk).1.congr (hagree n hn k hk heq)).1.tiles
  · exact iLinksCount_eq h.frame h.shape
      (disjoint_inodeField_unlink hg hdata h₁ h₂ hm₁ (by decide) (.inl hne))

/-! ## `ext2_rm` -/

theorem Intact.listed (h : Intact img) :
    n ∈ listedDirs img ↔ isVisible n = true ∧ isDirectory img n = true := by
  have hroot := h.wellFormed.root
  unfold isDirectory at hroot
  rw [Bool.and_eq_true] at hroot
  exact mem_listedDirs_iff hroot.1

theorem Intact.dirs (h : Intact img) (hinit : init img = some t) :
    t.dirs = (listedDirs img).flatMap (blockList img) :=
  init_dirs hinit fun _ hn => (h.wellFormed.dirOk _ (h.listed.1 hn).2).ends

theorem Intact.mem_dirs (h : Intact img) (hinit : init img = some t) (hb : b ∈ t.dirs) :
    ∃ n, isDirectory img n = true ∧ b ∈ blockList img n := by
  rw [h.dirs hinit] at hb
  obtain ⟨n, hn, hbn⟩ := List.mem_flatMap.1 hb
  exact ⟨n, (h.listed.1 hn).2, hbn⟩

theorem Intact.tiles (h : Intact img) (hinit : init img = some t) (hb : b ∈ t.dirs) :
    BlockTiles img b := by
  obtain ⟨n, hn, hbn⟩ := h.mem_dirs hinit hb
  exact (h.blocks n hn b hbn).1.tiles

/-- The entry that is found. -/
theorem Intact.findNamed_eq (h : Intact img) (hinit : init img = some t) (name : Name) :
    (findNamed t img name).map Prod.snd =
      ((listedDirs img).flatMap (dirEntries img)).find? fun q => deName img q == name := by
  rw [findNamed, findSome?_findPair, h.dirs hinit, List.flatMap_assoc]
  congr 1
  funext q
  rw [Bool.eq_iff_iff, namesEntry_iff, beq_iff_eq]

/-- What `traverse` returns is in the table. -/
theorem Intact.traverse_le (h : Intact img) (hinit : init img = some t) (hpath : tokens path ≠ [])
    (hr : traversePath t img (tokens path) (basename path) = some r) (hne : r ≠ 0) :
    r ≤ sInodesCount img := by
  rw [traversePath_eq h.wellFormed hinit hpath] at hr
  have hr := Option.some.inj hr
  have hcut : cutPath path ≠ [] := by
    obtain ⟨c, cs, hcs⟩ := List.exists_cons_of_ne_nil hpath
    rw [cutPath, hcs, cutAt]
    split
    · simp
    · simp
  rw [arrival] at hr
  split at hr
  · exact absurd hr.symm hne
  · cases hwalk : walk img ext2RootIno (cutPath path) with
    | none =>
      rw [hwalk] at hr
      exact absurd hr.symm hne
    | some m =>
      obtain ⟨d, pos, hd, hpos, hlive, hino⟩ := walk_named hcut hwalk
      rw [hwalk, Option.getD_some] at hr
      rw [← hr, ← hino]
      exact (h.named d hd pos hpos hlive).1

theorem walk_isDirectory {c : Name} {cs : List Name} (h : walk img n (c :: cs) = some m) :
    isDirectory img n = true := by
  rw [walk_cons] at h
  obtain ⟨_, hlookup, -⟩ := Option.bind_eq_some_iff.1 h
  exact (lookup_some hlookup).1

theorem cutAt_append (last : Name) (names : List Name) :
    ∃ rest, names = cutAt last names ++ rest := by
  induction names with
  | nil => exact ⟨[], rfl⟩
  | cons name names ih =>
    rw [cutAt]
    split
    · exact ⟨names, rfl⟩
    · obtain ⟨rest, hrest⟩ := ih
      exact ⟨rest, by rw [List.cons_append, ← hrest]⟩

theorem obstructs_of_obstructed {as : List Name} {c : Name} (hwalk : walk img n as = some m)
    (h : obstructed img n (as ++ [c]) = false) : obstructs img m c = false := by
  induction as generalizing n with
  | nil =>
    obtain rfl := Option.some.inj hwalk
    rw [List.nil_append, obstructed_cons, Bool.or_eq_false_iff] at h
    exact h.1
  | cons a as ih =>
    rw [walk_cons] at hwalk
    obtain ⟨m', hlookup, hwalk⟩ := Option.bind_eq_some_iff.1 hwalk
    rw [List.cons_append, obstructed_cons, Bool.or_eq_false_iff, hlookup] at h
    exact ih hwalk h.2

/-- A straight path to a file leads to the first block of its directory. -/
theorem PathEntry.firstBlock (h : PathEntry img path p pos)
    (hfile : IsFile img (deInode img pos)) (hstraight : Straight img path) :
    pos ∈ firstBlock img p := by
  unfold Straight at hstraight
  rw [h.walk] at hstraight
  split at hstraight
  · cases hstraight
  rename_i hobs
  -- the path is not cut, since the walk does not go on from a file
  have hcut : cutPath path = tokens path := by
    obtain ⟨rest, hrest⟩ := cutAt_append (basename path) (tokens path)
    cases rest with
    | nil => rw [cutPath, ← List.append_nil (cutAt _ _), ← hrest]
    | cons c cs =>
      have hwalk := h.walk
      rw [hrest, walk_append, ← cutPath, ← hstraight, Option.bind_some] at hwalk
      have hdir := walk_isDirectory hwalk
      rw [isDirectory, Bool.and_eq_true, beq_iff_eq] at hdir
      unfold IsFile at hfile
      rw [hdir.2] at hfile
      exact absurd hfile (by decide)
  rw [hcut, Bool.not_eq_true, h.tokens_eq] at hobs
  have hno := obstructs_of_obstructed h.parent hobs
  rw [obstructs, h.directory, Bool.true_and, Bool.or_eq_false_iff] at hno
  have hlookup := h.lookup
  cases hfirst : firstNamed img p (basename path) with
  | none =>
    rw [hfirst, hlookup] at hno
    cases hno.2
  | some pos' =>
    rw [hfirst] at hno
    have hlive : isLive img pos' = true := by simpa using hno.2
    have hentry := h.entry
    rw [liveNamed, dirEntries_eq, List.find?_append, find?_and_eq_some hfirst hlive,
      Option.some_or] at hentry
    rw [← Option.some.inj hentry]
    exact List.mem_of_find?_eq_some hfirst

/-- An entry in the first block of a directory that is not `.` stands after another one. -/
theorem Intact.place (h : Intact img) {q : ℕ} {bs : List ℕ} (hn : isDirectory img n = true)
    (hlist : blockList img n = b :: bs) (hdot : deName img q ≠ [dot])
    (hplace : (∃ cs, blockEntries img b = q :: cs ∧ pre = b * ext2BlockSize) ∨
      ∃ as cs, blockEntries img b = as ++ pre :: q :: cs) :
    ∃ as cs, blockEntries img b = as ++ pre :: q :: cs := by
  refine hplace.resolve_left fun hfirst => hdot ?_
  obtain ⟨cs, hcs, -⟩ := hfirst
  obtain ⟨b', bs', hlist', -, hname, -⟩ := (h.wellFormed.dirOk n hn).dot
  rw [hlist] at hlist'
  obtain ⟨rfl, -⟩ := List.cons.inj hlist'
  obtain ⟨ps, hps⟩ := (h.blocks n hn b (by rw [hlist]; exact List.mem_cons_self)).1.first
  rw [hps] at hcs
  obtain ⟨rfl, -⟩ := List.cons.inj hcs
  exact hname

/-- A name of a file is none of the two that `ext2_rm` refuses. -/
theorem PathEntry.not_dots (h : PathEntry img path p pos) (hwf : Intact img)
    (hfile : IsFile img (deInode img pos)) :
    ¬ (basename path = [dot] ∨ basename path = [dot, dot]) := by
  obtain ⟨hpos, hlive, hname⟩ := h.live
  intro hdots
  rw [← hname] at hdots
  exact hwf.dots p h.directory pos hpos hlive hdots hfile

/-- On a straight path the entry is in the first block of its directory. -/
theorem PathEntry.mem_firstBlock (h : PathEntry img path p pos) (hwf : Intact img)
    (hfile : IsFile img (deInode img pos)) (hstraight : Straight img path) :
    ∃ b bs, blockList img p = b :: bs ∧ pos ∈ blockEntries img b := by
  have hmem := h.firstBlock hfile hstraight
  obtain ⟨b, bs, hlist, -⟩ := hwf.wellFormed.block h.directory
  rw [Ext2.firstBlock, hlist, List.take_succ_cons, List.take_zero, List.flatMap_singleton] at hmem
  exact ⟨b, bs, hlist, hmem⟩

/-- **What `ext2_rm` does with a file that it finds.** -/
theorem PathEntry.rm_found (h : PathEntry img path p pos) (hwf : Intact img)
    (hfile : IsFile img (deInode img pos)) (hfound : Found img path pos) (env : Env) :
    ∃ t b as pre bs, init img = some t ∧ b ∈ blockList img p ∧
      blockEntries img b = as ++ pre :: pos :: bs ∧
      rm env path img =
        some ⟨0, "", removeLink env t (unlinkEntry img (some pre) pos) (deInode img pos)⟩ := by
  obtain ⟨hpos, hlive, -⟩ := h.live
  obtain ⟨t, hinit⟩ := Option.isSome_iff_exists.1 hfound.init
  have htokens := h.nonempty
  have hdots := h.not_dots hwf hfile
  have hstraight := hfound.straight
  rw [straight_iff, h.walk, Option.getD_some] at hstraight
  have htraverse := traversePath_eq hwf.wellFormed hinit htokens
  rw [hstraight] at htraverse
  have hslash : path ≠ [slash] := by
    rintro rfl
    exact htokens rfl
  have hchecks : rmChecks path img = some (.ok (t, deInode img pos)) :=
    rmChecks_ok.2 ⟨hinit, hslash, hdots, htokens, htraverse, deInode_ne_zero hlive⟩
  have hfirst := hfound.first
  rw [← hwf.findNamed_eq hinit] at hfirst
  obtain ⟨⟨pre, q⟩, hnamed, hq⟩ := Option.map_eq_some_iff.1 hfirst
  obtain rfl : q = pos := hq
  have htype : IsFileEntry img q := (hwf.types p h.directory q hpos hlive).2 hfile
  obtain ⟨bp, bs, hlist, hin⟩ := h.mem_firstBlock hwf hfile hfound.straight
  have hbp : bp ∈ blockList img p := by
    rw [hlist]
    exact List.mem_cons_self
  obtain ⟨hqname, b, hb, hplace⟩ := findNamed_some hnamed
  obtain ⟨n, hn, hbn⟩ := hwf.mem_dirs hinit hb
  obtain ⟨hok, -⟩ := hwf.blocks n hn b hbn
  obtain rfl : b = bp := by
    rw [← hok.div_eq (mem_of_place hok hplace).1,
      (hwf.blocks p h.directory bp hbp).1.div_eq hin]
  obtain ⟨as, cs, hplace⟩ := hwf.place h.directory hlist
    (by rw [hqname]; exact fun hdot => hdots (.inl hdot)) hplace
  refine ⟨t, b, as, pre, cs, hinit, hbp, hplace, ?_⟩
  rw [rm, hchecks]
  show rmFile env t img _ _ = _
  rw [rmFile_eq fun b hb => hwf.tiles hinit hb, hnamed, Option.map_some, if_pos htype]

/-- **When `ext2_rm` unlinks the entry that the path names.** -/
theorem rm_unlinks_iff (env : Env) (hwf : Intact img) (hentry : PathEntry img path p pos)
    (hfile : IsFile img (deInode img pos)) :
    (∃ o, rm env path img = some o ∧ Unlinks img o.img p pos) ↔ Found img path pos := by
  obtain ⟨hpos, hlive, -⟩ := hentry.live
  obtain ⟨hm₂, hlinks⟩ := hwf.named p hentry.directory pos hpos hlive
  have hm₁ : 1 ≤ deInode img pos := Nat.one_le_iff_ne_zero.2 (deInode_ne_zero hlive)
  obtain ⟨hp₁, hp₂⟩ := isDirectory_range hentry.directory
  have hdots := hentry.not_dots hwf hfile
  constructor
  · intro h
    obtain ⟨o, hrm, hun⟩ := h
    -- the entry is not among the used entries afterwards
    have hgone : ∀ bp ∈ blockList o.img p, pos ∈ blockEntries o.img bp →
        isLive o.img pos = true → False := by
      intro bp hbp hin hlive'
      have hmem : (pos, entryAt o.img pos) ∈ liveEntries o.img p :=
        List.mem_map.2 ⟨pos, List.mem_filter.2 ⟨List.mem_flatMap.2 ⟨bp, hbp, hin⟩, hlive'⟩, rfl⟩
      rw [hun.parent] at hmem
      simpa using List.of_mem_filter hmem
    obtain ⟨bp₀, hbp₀, hin₀⟩ := mem_dirEntries hpos
    rcases rm_cases (fun t hinit b hb => hwf.tiles hinit hb) hrm with
      heq | ⟨t, r, pre, q, hchecks, hfound, -, himg⟩
    · rw [heq] at hgone
      exact (hgone bp₀ hbp₀ hin₀ hlive).elim
    obtain ⟨hinit, -, -, htokens, htraverse, hne⟩ := rmChecks_ok.1 hchecks
    have hr₁ : 1 ≤ r := Nat.one_le_iff_ne_zero.2 hne
    have hr₂ := hwf.traverse_le hinit htokens htraverse hne
    obtain ⟨hqname, b, hb, hplace⟩ := findNamed_some hfound
    obtain ⟨n, hn, hbn⟩ := hwf.mem_dirs hinit hb
    obtain ⟨hok, hdata⟩ := hwf.blocks n hn b hbn
    obtain ⟨hq, hpre⟩ := mem_of_place hok hplace
    obtain ⟨hunlink, hag⟩ :=
      unlink_of_frame hwf.geometry hdata (unlinkEntry_blockFrame hok hq hpre) hr₁ hr₂ env t
    rw [← himg] at hunlink hag
    have hr : r = deInode img pos := by
      by_contra hrne
      have hkept : iLinksCount o.img (deInode img pos) = iLinksCount img (deInode img pos) :=
        iLinksCount_eq hunlink.frame hunlink.shape (disjoint_inodeField_unlink hwf.geometry hdata
          hm₁ hm₂ hr₁ (by decide) (.inl (Ne.symm hrne)))
      have hdec := hun.decremented
      omega
    have hstraight : Straight img path := by
      rw [straight_iff, hentry.walk, Option.getD_some, ← hr]
      rw [traversePath_eq hwf.wellFormed hinit htokens] at htraverse
      exact Option.some.inj htraverse
    obtain ⟨bp, bs, hlist, hin⟩ := hentry.mem_firstBlock hwf hfile hstraight
    have hbp : bp ∈ blockList img p := by
      rw [hlist]
      exact List.mem_cons_self
    have hbp' : bp ∈ blockList o.img p := by
      rw [blockList_eq hunlink.frame hunlink.shape (disjoint_inodeField_unlink hwf.geometry hdata
        hp₁ hp₂ hr₁ (by decide) (.inr (.inr (by decide))))]
      exact hbp
    obtain ⟨hbpok, hbpdata⟩ := hwf.blocks p hentry.directory bp hbp
    have hqpos : q = pos := by
      by_contra hqpos
      by_cases hbbp : b = bp
      · -- another entry of the same block has gone, and this one is still there
        subst hbbp
        obtain ⟨as, cs, hplace⟩ := hwf.place hentry.directory hlist
          (by rw [hqname]; exact fun hdot => hdots (.inl hdot)) hplace
        have hrem := (unlinkEntry_removed hok hplace).1.congr hag
        have hmem : pos ∈ as ++ pre :: cs := by
          rw [hplace] at hin
          grind
        refine hgone b hbp' (by rw [hrem.after]; exact hmem) ?_
        rw [isLive_of_entryAt (hrem.same pos hmem)]
        exact hlive
      · -- an entry of another block has gone
        have hag' := agree_blockBytes hunlink.frame (Set.disjoint_union_right.2
          ⟨disjoint_blockBytes (Ne.symm hbbp), disjoint_blockBytes_removeLink hbpdata hr₁ hr₂⟩)
        obtain ⟨-, hentries, hsame, -⟩ := hbpok.congr hag'
        refine hgone bp hbp' (by rw [hentries]; exact hin) ?_
        rw [isLive_of_entryAt (hsame pos hin)]
        exact hlive
    refine ⟨by rw [hinit]; rfl, hstraight, ?_⟩
    rw [← hwf.findNamed_eq hinit, hfound, Option.map_some, hqpos]
  · intro h
    obtain ⟨t, b, as, pre, bs, -, hb, hplace, hrm⟩ := hentry.rm_found hwf hfile h env
    obtain ⟨hok, hdata⟩ := hwf.blocks p hentry.directory b hb
    obtain ⟨hrem, hframe⟩ := unlinkEntry_removed hok hplace
    obtain ⟨hunlink, hag⟩ := unlink_of_frame hwf.geometry hdata hframe hm₁ hm₂ env t
    exact ⟨_, hrm, hunlink.unlinks hwf hentry.directory hb hlive (hrem.congr hag)⟩

/-! ## The example -/

instance (img : Image) (n : ℕ) : Decidable (IsFile img n) := by
  unfold IsFile; infer_instance

def exEnv : Env := ⟨0, fun _ => 0, fun _ => 0, fun _ => []⟩

theorem exImage_geometry : Geometry exImage := by
  constructor
  all_goals decide +kernel

theorem exImage_blocks (hn : isDirectory exImage n = true) (hb : b ∈ blockList exImage n) :
    BlockOk exImage b ∧ IsData exImage b := by
  have hmem : b ∈ [9, 10, 11] := by
    have hall : ∀ n ∈ [2, 12, 13], ∀ b ∈ blockList exImage n, b ∈ [9, 10, 11] := by decide +kernel
    exact hall n (by simpa using exImage_isDirectory hn) b hb
  have hall : ∀ b ∈ [9, 10, 11], BlockTiles exImage b ∧
      (∀ pos ∈ blockEntries exImage b,
        12 ≤ recLen exImage pos ∧ 8 + nameLen exImage pos ≤ recLen exImage pos) ∧
      InImage b ∧ 3 ≤ b ∧ b ≠ bgBlockBitmap exImage ∧ b ≠ bgInodeBitmap exImage ∧
      tableEnd exImage ≤ b * ext2BlockSize := by decide +kernel
  obtain ⟨htiles, hfits, h₁, h₂, h₃, h₄, h₅⟩ := hall b hmem
  exact ⟨⟨htiles, fun pos hpos => (hfits pos hpos).1, fun pos hpos => (hfits pos hpos).2⟩,
    ⟨h₁, h₂, h₃, h₄, .inr h₅⟩⟩

theorem exImage_intact : Intact exImage := by
  have hall : ∀ n ∈ [2, 12, 13], ∀ pos ∈ dirEntries exImage n, isLive exImage pos = true →
      (deInode exImage pos ≤ sInodesCount exImage ∧ 1 ≤ iLinksCount exImage (deInode exImage pos)) ∧
      (IsFileEntry exImage pos ↔ IsFile exImage (deInode exImage pos)) ∧
      (deName exImage pos = [dot] ∨ deName exImage pos = [dot, dot] →
        ¬ IsFile exImage (deInode exImage pos)) := by decide +kernel
  have hdir : ∀ n, isDirectory exImage n = true → n ∈ [2, 12, 13] := fun n hn => by
    simpa using exImage_isDirectory hn
  exact ⟨exImage_wellFormed, exImage_geometry, fun n hn b hb => exImage_blocks hn hb,
    fun n hn pos hpos hlive => (hall n (hdir n hn) pos hpos hlive).1,
    fun n hn pos hpos hlive => (hall n (hdir n hn) pos hpos hlive).2.1,
    fun n hn pos hpos hlive => (hall n (hdir n hn) pos hpos hlive).2.2⟩

/-- `/f` is removed. -/
theorem rm_unlinks_iff_file :
    ∃ o, rm exEnv [47, 102] exImage = some o ∧ Unlinks exImage o.img 2 9252 :=
  (rm_unlinks_iff exEnv exImage_intact ⟨by decide, by decide +kernel, by decide +kernel,
    by decide +kernel⟩ (by decide +kernel)).2
    ⟨by decide +kernel, by decide +kernel, by decide +kernel⟩

/-- `/a/b/a` is a file, but what is found is the entry of the directory `/a`. -/
theorem exImage_not_unlinks : Intact exImage ∧
    PathEntry exImage [47, 97, 47, 98, 47, 97] 13 11288 ∧ IsFile exImage (deInode exImage 11288) ∧
    ¬ ∃ o, rm exEnv [47, 97, 47, 98, 47, 97] exImage = some o ∧
      Unlinks exImage o.img 13 11288 := by
  refine ⟨exImage_intact, ⟨by decide, by decide +kernel, by decide +kernel, by decide +kernel⟩,
    by decide +kernel, fun h => ?_⟩
  obtain ⟨o, hrm, hun⟩ := h
  have hbefore : ((liveEntries exImage 13).filter fun e => e.1 ≠ 11288).length = 2 := by
    decide +kernel
  have hafter : (rm exEnv [47, 97, 47, 98, 47, 97] exImage).map
      (fun o => (liveEntries o.img 13).length) = some 3 := by decide +kernel
  rw [hrm, Option.map_some, hun.parent, hbefore] at hafter
  exact absurd (Option.some.inj hafter) (by decide)

end Cscc69.Ext2
