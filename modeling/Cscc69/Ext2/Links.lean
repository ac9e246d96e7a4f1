import Cscc69.Ext2.Operations
import Cscc69.Lib.Runs

/-!
# Link counts

In a consistent image the count of an inode in use is the number of used entries that name it
(`LinksOk`). Each tool changes the entries in one place and the counts in another: `create_link` and
`unlinkEntry` here, `allocate` and `remove_link` there. They go together when the entry could be
added, when the new inode's count was 0 before, and when the entry that is removed is the one of the
inode (`Command.Counts`). `ext2_ln -s` sets no count at all, and `ext2_rm_bonus` leaves those of a
directory and of its parent too high.

Main result: `links_run`.
-/

namespace Cscc69.Ext2

open Bytes Records Naming

variable {img img' : Image} {n m b d x q r : ℕ} {name path path₁ path₂ : Name} {t : Tables}
  {env : Env}

/-! ## Commands -/

/-- The command lines of the tools, `ext2_rm_bonus` with `-r`. -/
inductive Command where
  | mkdir (path : Name)
  | cp (file : Option (List UInt8)) (path₁ path₂ : Name)
  | ln (sflag : Bool) (path₁ path₂ : Name)
  | rm (path : Name)
  | rmBonus (path : Name)

def Command.run (env : Env) : Command → Image → Option Outcome
  | .mkdir path => Ext2.mkdir path
  | .cp file path₁ path₂ => Ext2.cp env file path₁ path₂
  | .ln sflag path₁ path₂ => Ext2.ln sflag path₁ path₂
  | .rm path => Ext2.rm env path
  | .rmBonus path => Ext2.rmBonus env true path

/-- A run of a tool that comes to its end. -/
def ToolStep (img : Image) (c : Env × Command) (img' : Image) : Prop :=
  ∃ o, c.2.run c.1 img = some o ∧ o.img = img'

/-! ## Counts -/

/-- The count of each inode in use is that of the used entries naming it. -/
def LinksOk (img : Image) : Prop :=
  ∀ n, inUse img n = true → iLinksCount img n = (space img).refs n

/-- The inode that `find_free_inode` gives, or 0. -/
def freeInode (img : Image) : ℕ := (findFreeInode img).1

/-- `ext2_mkdir` gets an inode that nothing names. If the parent has room there are a block and a
count left for it, and the inode has no second block from an earlier use; otherwise the inode is
marked without a name, and is no directory and without links by an earlier use. -/
def MkdirCounts (path : Name) (img : Image) : Prop :=
  ∀ t d name, mkdirChecks path img = some (.ok (t, d, name)) → freeInode img ≠ 0 →
    Unnamed img (freeInode img) ∧
    (HasRoom t img d name ext2FtDir → (findFreeBlock img).1 ≠ 0 ∧ iBlock img (freeInode img) 1 = 0 ∧
      iLinksCount img d < 65535) ∧
    (¬ HasRoom t img d name ext2FtDir → iLinksCount img (freeInode img) = 0 ∧
      ¬ (space img).isDir (freeInode img))

/-- `ext2_cp` gets an inode that nothing names, without links by an earlier use. If the parent has
room each string that it copies fits a block; otherwise the inode is no directory. -/
def CpCounts (env : Env) (file : Option (List UInt8)) (path₁ path₂ : Name) (img : Image) : Prop :=
  ∀ t d name data, cpChecks file path₁ path₂ img = some (.ok (t, d, name, data)) →
    freeInode img ≠ 0 → Unnamed img (freeInode img) ∧ iLinksCount img (freeInode img) = 0 ∧
      (HasRoom t img d name ext2FtRegFile → StringsFit 12 env.stack data) ∧
      (¬ HasRoom t img d name ext2FtRegFile → ¬ (space img).isDir (freeInode img))

/-- `ext2_ln` is without `-s`, the parent has room, and the inode that it links is no directory and
has a count left. -/
def LnCounts (sflag : Bool) (path₁ path₂ : Name) (img : Image) : Prop :=
  ∀ t d r name, lnChecks path₁ path₂ img = some (.ok (t, d, r, name)) →
    sflag = false ∧ HasRoom t img d name ext2FtRegFile ∧ ¬ (space img).isDir r ∧
      iLinksCount img r < 65535

/-- The entry of a file that `ext2_rm` finds by its name names the inode that it has found by the
path, and is not the first of its block. -/
def RmCounts (path : Name) (img : Image) : Prop :=
  ∀ t r pre q, rmChecks path img = some (.ok (t, r)) →
    findNamed t img (basename path) = some (pre, q) → IsFileEntry img q →
    deInode img q = r ∧ pre ≠ q

/-- The entry that `ext2_rm_bonus` finds is no directory's. -/
def FindsNoDir (path : Name) (img : Image) : Prop :=
  ∀ t r pre q, rmChecks path img = some (.ok (t, r)) →
    findNamed t img (basename path) = some (pre, q) → fileType img q ≠ ext2FtDir

def Command.Counts (env : Env) : Command → Image → Prop
  | .mkdir path => MkdirCounts path
  | .cp file path₁ path₂ => CpCounts env file path₁ path₂
  | .ln sflag path₁ path₂ => LnCounts sflag path₁ path₂
  | .rm path => RmCounts path
  | .rmBonus path => fun img => RmCounts path img ∧ FindsNoDir path img

/-! ## The counts keep up -/

theorem Unnamed.refs (h : Unnamed img n) : (space img).refs n = 0 :=
  (Space.refs_eq_zero_iff (entries_finite img)).2 h

namespace Edited

variable {gone come : Set ℕ}

/-- An inode in use was in use before, or is the one of the edit. -/
theorem inUse_cases (h : Edited img img' d b n gone come) (hm : inUse img' m = true) :
    m = n ∨ inUse img m = true := by
  rw [inUse_iff, h.shape.inodes, h.shape.inodeBitmap] at hm
  obtain ⟨hm₁, hm₂, hbit⟩ := hm
  rcases h.bits (m - 1) (by omega) hbit with hbit | heq
  · exact .inr (inUse_iff.2 ⟨hm₁, hm₂, hbit⟩)
  · exact .inl (by omega)

end Edited

theorem LinksOk.dirAdded {new : ℕ} (h : LinksOk img) (hadd : DirAdded img img' d b n x name new)
    (hx : x ≠ 0) (hfirst : iBlock img n 1 = 0) (hunnamed : Unnamed img n)
    (hlt : iLinksCount img d < 65535) : LinksOk img' := by
  intro m hm
  have hrefs := (hadd.addsDir hx hfirst).refs (entries_finite img') m
  have hne : n ≠ d := hadd.site.ne_dir
  have huse := hadd.edited.inUse_cases hm
  rw [hrefs]
  by_cases hmn : m = n
  · rw [hmn, if_pos rfl, if_neg hne, hunnamed.refs, hadd.links]
  · have huse := huse.resolve_left hmn
    rw [if_neg hmn]
    by_cases hmd : m = d
    · rw [hmd] at huse ⊢
      rw [if_pos rfl, hadd.parent, ← h d huse, Nat.mod_eq_of_lt (by omega)]
    · obtain ⟨hm₁, hm₂, -⟩ := inUse_iff.1 huse
      rw [if_neg hmd, hadd.site.iLinksCount_eq hadd.edited.frame hm₁ hm₂ hmn hmd, h m huse,
        Nat.add_zero]

theorem LinksOk.fileAdded {new : ℕ} (h : LinksOk img) (hadd : FileAdded img img' d b n name new)
    (hn : inUse img' n = true → iLinksCount img n = (space img).refs n)
    (hlt : iLinksCount img n < 65535) : LinksOk img' := by
  intro m hm
  have hrefs := hadd.edited.changes.refs
    (Edited.come_file hadd.file hadd.names) (entries_finite img) (entries_finite img') m
  have htarget : (space img').target new = n := hadd.names new rfl
  rw [Set.sep_empty, Set.ncard_empty, Nat.add_zero, Space.ncard_sep_singleton, htarget] at hrefs
  rw [hrefs]
  by_cases hmn : m = n
  · rw [hmn] at hm ⊢
    rw [if_pos rfl, hadd.links, ← hn hm, Nat.mod_eq_of_lt (by omega)]
  · have huse := (hadd.edited.inUse_cases hm).resolve_left hmn
    obtain ⟨hm₁, hm₂, -⟩ := inUse_iff.1 huse
    rw [if_neg (Ne.symm hmn), hadd.others m hm₁ hm₂ hmn, h m huse, Nat.add_zero]

theorem LinksOk.fileRemoved (h : LinksOk img) (hrem : FileRemoved img img' d b n q) :
    LinksOk img' := by
  intro m hm
  have hs := hrem.edited.site
  have hrefs := hrem.edited.changes.refs (fun _ hq => absurd hq (Set.notMem_empty _))
    (entries_finite img) (entries_finite img') m
  have htarget : (space img).target q = n := hrem.target
  rw [Set.sep_empty, Set.ncard_empty, Nat.add_zero, Space.ncard_sep_singleton, htarget] at hrefs
  have huse : inUse img m = true := by
    rw [inUse_iff, hrem.edited.shape.inodes, hrem.edited.shape.inodeBitmap] at hm
    obtain ⟨hm₁, hm₂, hbit⟩ := hm
    have hinodes := hs.sound.geometry.inodes
    exact inUse_iff.2 ⟨hm₁, hm₂, hrem.unlink.bits (m - 1) (by omega) hbit⟩
  have hcount := h m huse
  by_cases hmn : m = n
  · rw [hmn] at hrefs hcount ⊢
    rw [if_pos rfl] at hrefs
    rw [hrem.unlink.links]
    omega
  · obtain ⟨hm₁, hm₂, -⟩ := inUse_iff.1 huse
    rw [if_neg (Ne.symm hmn)] at hrefs
    rw [hrem.others hm₁ hm₂ hmn]
    omega

/-- `find_free_inode` alone: an inode gets its mark, and no name. -/
theorem freeInode_edited (h : Sound img) (hfree : freeInode img ≠ 0)
    (hunnamed : Unnamed img (freeInode img)) (hd : (space img).Reach d) (hb : b ∈ blockList img d) :
    Edited img (findFreeInode img).2 d b (freeInode img) ∅ ∅ := by
  have hs : Site img d b (freeInode img) := h.site hfree hunnamed hd hb
  exact hs.findFreeInode.1.unchanged hs (findFreeInode_sameData h.geometry b hs.data)
    fun q hq hqn => absurd hqn (hunnamed q hq)

theorem freeInode_iMode (h : Sound img) (hn₁ : 1 ≤ n) (hn₂ : n ≤ sInodesCount img) :
    iMode (findFreeInode img).2 n = iMode img n ∧
      iLinksCount (findFreeInode img).2 n = iLinksCount img n := by
  have hg := h.geometry
  have hframe := (findFreeInode_marks hg).1.frame
  have hshape : SameShape img (findFreeInode img).2 := .of_frame hframe
    (Set.disjoint_union_left.2
      ⟨disjoint_blockBytes_header hg.inodeBitmap, disjoint_freeCounts_header⟩)
  have hdisj : ∀ {off len}, off + len ≤ 128 → Disjoint (inodeField img n off len)
      (blockBytes (bgInodeBitmap img) ∪ freeCounts) := fun hlen => Set.disjoint_union_right.2
    ⟨disjoint_inodeField_blockBytes hn₁ hn₂ hlen hg.inodeBitmap_table,
      disjoint_inodeField_freeCounts hg hn₁ hn₂ hlen⟩
  exact ⟨iMode_eq hframe hshape (hdisj (by decide)),
    iLinksCount_eq hframe hshape (hdisj (by decide))⟩

/-- A tool that leaves the inode without a name. -/
theorem LinksOk.leaked (h : Sound img) (hl : LinksOk img) (hd : (space img).Reach d)
    (hb : b ∈ blockList img d) (hc : freeInode img ≠ 0 → Unnamed img (freeInode img) ∧
      iLinksCount img (freeInode img) = 0 ∧ ¬ (space img).isDir (freeInode img)) :
    Sound (findFreeInode img).2 ∧ LinksOk (findFreeInode img).2 := by
  by_cases hfree : freeInode img = 0
  · rw [findFreeInode_zero hfree]
    exact ⟨h, hl⟩
  · obtain ⟨hunnamed, hzero, hfile⟩ := hc hfree
    have hedit := freeInode_edited h hfree hunnamed hd hb
    have hs := hedit.site
    have hfile' : ¬ (space (findFreeInode img).2).isDir (freeInode img) := by
      show ¬ modeType (iMode _ _) = ext2SIfdir
      rw [(freeInode_iMode h hs.one_le hs.le).1]
      exact hfile
    refine ⟨hedit.sound hfile' fun _ hq => absurd hq (Set.notMem_empty _), fun m hm => ?_⟩
    have hrefs := hedit.changes.refs (fun _ hq => absurd hq (Set.notMem_empty _))
      (entries_finite img) (entries_finite _) m
    rw [Set.sep_empty, Set.sep_empty, Set.ncard_empty, Nat.add_zero, Nat.add_zero] at hrefs
    rw [hrefs]
    rcases hedit.inUse_cases hm with rfl | huse
    · rw [(freeInode_iMode h hs.one_le hs.le).2, hzero, hunnamed.refs]
    · obtain ⟨hm₁, hm₂, -⟩ := inUse_iff.1 huse
      rw [(freeInode_iMode h hm₁ hm₂).2, hl m huse]

/-! ## The tools -/

theorem unnamed_zero (img : Image) : Unnamed img 0 := fun _ hq => by
  obtain ⟨-, -, -, -, -, hlive⟩ := mem_entries.1 hq
  exact deInode_ne_zero hlive

theorem unnamed_of_free (h : freeInode img ≠ 0 → Unnamed img (freeInode img)) :
    Unnamed img (freeInode img) := by
  by_cases hfree : freeInode img = 0
  · rw [hfree]
    exact unnamed_zero img
  · exact h hfree

theorem links_mkdir (h : Sound img) (hl : LinksOk img) (hc : MkdirCounts path img) {o : Outcome}
    (hrun : mkdir path img = some o) : Sound o.img ∧ LinksOk o.img := by
  rcases mkdir_cases hrun with heq | ⟨t, d, name, hchecks, hadd⟩
  · rw [heq]
    exact ⟨h, hl⟩
  obtain ⟨hinit, hd, hname⟩ := mkdirChecks_ok hchecks
  have hc := hc t d name hchecks
  rcases addDir_cases h hinit hd hname (unnamed_of_free fun hfree => (hc hfree).1) hadd with
    ⟨hno, heq, hreach, b, hb⟩ | ⟨hhas, b, new, hadded⟩
  · rw [heq]
    exact hl.leaked h hreach hb fun hfree => ⟨(hc hfree).1, (hc hfree).2.2 hno⟩
  · have hfree : freeInode img ≠ 0 := Nat.one_le_iff_ne_zero.1 hadded.site.one_le
    obtain ⟨hunnamed, hroom, -⟩ := hc hfree
    obtain ⟨hblock, hfirst, hlt⟩ := hroom hhas
    exact ⟨hadded.sound hblock hfirst, hl.dirAdded hadded hblock hfirst hunnamed hlt⟩

theorem links_cp {file : Option (List UInt8)} (h : Sound img) (hl : LinksOk img)
    (hc : CpCounts env file path₁ path₂ img) {o : Outcome}
    (hrun : cp env file path₁ path₂ img = some o) : Sound o.img ∧ LinksOk o.img := by
  rcases cp_cases hrun with heq | ⟨t, d, name, data, hchecks, hadd⟩
  · rw [heq]
    exact ⟨h, hl⟩
  obtain ⟨hinit, hd, hname⟩ := cpChecks_ok hchecks
  have hc := hc t d name data hchecks
  have hunnamed := unnamed_of_free fun hfree => (hc hfree).1
  rcases addFile_cases h hinit hd hname hunnamed (fun hfree => (hc hfree).2.2.1) hadd with
    ⟨hno, heq, hreach, b, hb⟩ | ⟨-, b, new, hadded⟩
  · rw [heq]
    exact hl.leaked h hreach hb fun hfree =>
      ⟨hunnamed, (hc hfree).2.1, (hc hfree).2.2.2 hno⟩
  · have hzero := (hc (Nat.one_le_iff_ne_zero.1 hadded.site.one_le)).2.1
    refine ⟨hadded.sound, hl.fileAdded hadded (fun _ => hzero.trans hunnamed.refs.symm) ?_⟩
    exact lt_of_eq_of_lt hzero (by decide)

theorem Sound.traversePath_le (h : Sound img) (hinit : init img = some t) {cs : List Name}
    {c : Name} (hr : traversePath t img cs c = some r) (hne : r ≠ 0) :
    r ≤ sInodesCount img := by
  unfold traversePath at hr
  split at hr
  · cases hr
  · rcases h.traverse hinit hr hne with rfl | ⟨q, hq, rfl⟩
    · exact h.rootLe
    · exact h.named q hq

theorem links_ln {sflag : Bool} (h : Sound img) (hl : LinksOk img)
    (hc : LnCounts sflag path₁ path₂ img) {o : Outcome}
    (hrun : ln sflag path₁ path₂ img = some o) : Sound o.img ∧ LinksOk o.img := by
  rcases ln_cases hrun with heq | ⟨t, d, r, name, hchecks, hadd⟩
  · rw [heq]
    exact ⟨h, hl⟩
  obtain ⟨hinit, hd, hname, hr, c, htraverse⟩ := lnChecks_ok hchecks
  obtain ⟨rfl, hroom, hfile, hlt⟩ := hc t d r name hchecks
  have hr₁ : 1 ≤ r := Nat.one_le_iff_ne_zero.2 hr
  rcases addHardLink_cases h hinit hd hname hr₁ (h.traversePath_le hinit htraverse hr) hfile hadd
    with ⟨hno, -⟩ | ⟨-, b, new, hadded, hframe⟩
  · exact absurd hroom hno
  · refine ⟨hadded.sound, hl.fileAdded hadded (fun huse => hl r ?_) hlt⟩
    -- the inode bitmap is as it was
    have hs := hadded.site
    have hinodes := h.geometry.inodes
    rw [inUse_iff, hadded.edited.shape.inodes, hadded.edited.shape.inodeBitmap] at huse
    obtain ⟨-, hle, hbit⟩ := huse
    rw [bit_eq hframe (Set.disjoint_union_right.2
      ⟨disjoint_blockBytes hs.data.inodeBitmap.symm,
        (disjoint_inodeField_blockBytes hr₁ hle (by decide) h.geometry.inodeBitmap_table).symm⟩)
      (by omega)] at hbit
    exact inUse_iff.2 ⟨hr₁, hle, hbit⟩

/-- What `ext2_rm` and `ext2_rm_bonus` do to a file. -/
theorem links_remove (h : Sound img) (hl : LinksOk img) (hc : RmCounts path img) {o : Outcome}
    (hcases : o.img = img ∨ ∃ t r pre q, rmChecks path img = some (.ok (t, r)) ∧
      findNamed t img (basename path) = some (pre, q) ∧ IsFileEntry img q ∧
      o.img = removeLink env t (unlinkEntry img (some pre) q) r) :
    Sound o.img ∧ LinksOk o.img := by
  rcases hcases with heq | ⟨t, r, pre, q, hchecks, hfound, hfile, heq⟩
  · rw [heq]
    exact ⟨h, hl⟩
  · obtain ⟨hq, hpre⟩ := hc t r pre q hchecks hfound hfile
    obtain ⟨hinit, -, -, -, -, hr⟩ := rmChecks_ok.1 hchecks
    obtain ⟨d, b, hrem⟩ : ∃ d b,
        FileRemoved img (removeLink env t (unlinkEntry img (some pre) q) r) d b r q :=
      rm_edited h hinit hr hfound hfile hq hpre
    rw [heq]
    exact ⟨hrem.sound, hl.fileRemoved hrem⟩

/-! ## Runs -/

/-- Sound images with the right counts. -/
structure Counted (img : Image) : Prop where
  sound : Sound img
  links : LinksOk img

theorem Counted.step {c : Env × Command} (h : Counted img) (hc : c.2.Counts c.1 img)
    (hstep : ToolStep img c img') : Counted img' := by
  obtain ⟨env, c⟩ := c
  obtain ⟨o, hrun, rfl⟩ := hstep
  have hboth : Sound o.img ∧ LinksOk o.img := by
    cases c with
    | mkdir path => exact links_mkdir h.sound h.links hc hrun
    | cp file path₁ path₂ => exact links_cp h.sound h.links hc hrun
    | ln sflag path₁ path₂ => exact links_ln h.sound h.links hc hrun
    | rm path => exact links_remove h.sound h.links hc (h.sound.rm_cases hrun)
    | rmBonus path =>
      exact links_remove h.sound h.links hc.1 (h.sound.rmBonus_cases hrun hc.2)
  exact ⟨hboth.1, hboth.2⟩

/-- **Link counts over runs.** If the counts are right at first, and each step of a run meets the
condition, they are right in the end. -/
theorem links_run {s : List (Lts.Transition Image (Env × Command))} (h : Sound img)
    (hl : LinksOk img) (hrun : Lts.Run ToolStep img s img')
    (hc : ∀ t ∈ s, t.event.2.Counts t.event.1 t.before) : LinksOk img' :=
  (hrun.invariant_while (I := Counted) (C := fun img c => c.2.Counts c.1 img) ⟨h, hl⟩
    (fun _ _ _ hI hC hstep => hI.step hC hstep) hc).links

/-! ## The example -/

theorem exImage_refs (n : ℕ) :
    (space exImage).refs n = (exEntries.filter fun q => deInode exImage q = n).length := by
  have hset : {q ∈ (space exImage).entries | (space exImage).target q = n} =
      ((exEntries.filter fun q => deInode exImage q = n).toFinset : Set ℕ) := by
    ext q
    rw [Set.mem_sep_iff, exImage_entries]
    simp [space]
  have hnodup : exEntries.Nodup := by decide +kernel
  rw [Space.refs, hset, Set.ncard_coe_finset, List.toFinset_card_of_nodup (hnodup.filter _)]

theorem exImage_linksOk : LinksOk exImage := by
  intro n hn
  have hle := (inUse_iff.1 hn).2.1
  have hcount : sInodesCount exImage = 32 := by decide +kernel
  have hall : ∀ n < 33, inUse exImage n = true → iLinksCount exImage n =
      (exEntries.filter fun q => deInode exImage q = n).length := by decide +kernel
  rw [exImage_refs]
  exact hall n (by omega) hn

theorem exImage_lnCounts : LnCounts false [47, 102] [47, 103] exImage := by
  intro t d r name hchecks
  rw [exImage_lnChecks] at hchecks
  cases hchecks
  exact ⟨rfl, ⟨9, by decide +kernel, 9252, by decide +kernel, by decide +kernel⟩,
    show ¬ modeType (iMode exImage 15) = ext2SIfdir by decide +kernel, by decide +kernel⟩

/-- The image after `ln /f /g`. -/
def exLinked : Image := ((ln false [47, 102] [47, 103] exImage).map Outcome.img).getD exImage

/-- The image after `ln /f /g` and `rm /f`. -/
def exMoved : Image := ((rm exEnv [47, 102] exLinked).map Outcome.img).getD exLinked

/-- `/f` gets the name `/g`: `ln /f /g`, then `rm /f`. -/
def exMove : List (Lts.Transition Image (Env × Command)) :=
  [⟨exLinked, (exEnv, .rm [47, 102]), exMoved⟩,
    ⟨exImage, (exEnv, .ln false [47, 102] [47, 103]), exLinked⟩]

theorem exMove_run : Lts.Run ToolStep exImage exMove exMoved := by
  have hln : (ln false [47, 102] [47, 103] exImage).isSome = true := by decide +kernel
  have hrm : (rm exEnv [47, 102] exLinked).isSome = true := by decide +kernel
  obtain ⟨o, ho⟩ := Option.isSome_iff_exists.1 hln
  obtain ⟨o', ho'⟩ := Option.isSome_iff_exists.1 hrm
  refine .snoc (.snoc .nil ⟨o, ho, ?_⟩) ⟨o', ho', ?_⟩
  · rw [exLinked, ho]
    rfl
  · rw [exMoved, ho']
    rfl

theorem exLinked_rmChecks : rmChecks [47, 102] exLinked = some (.ok (exTables, 15)) := by
  decide +kernel

theorem exLinked_findNamed : findNamed exTables exLinked [102] = some (9240, 9252) := by
  decide +kernel

theorem exLinked_rmCounts : RmCounts [47, 102] exLinked := by
  intro t r pre q hchecks hfound _
  rw [exLinked_rmChecks] at hchecks
  cases hchecks
  cases exLinked_findNamed.symm.trans hfound
  exact ⟨by decide +kernel, by decide⟩

theorem exMove_counts : ∀ t ∈ exMove, t.event.2.Counts t.event.1 t.before :=
  List.forall_mem_cons.2 ⟨exLinked_rmCounts, List.forall_mem_singleton.2 exImage_lnCounts⟩

/-- `ln /f /g`, then `rm /f` -/
theorem links_run_move : LinksOk exMoved ∧ iLinksCount exMoved 15 = 1 :=
  ⟨links_run exImage_sound exImage_linksOk exMove_run exMove_counts, by decide +kernel⟩

/-- `ln -s /f /g`: the new inode has a name and the count 0. -/
theorem symlink_not_counted : Sound exImage ∧ LinksOk exImage ∧
    ∃ o, ln true [47, 102] [47, 103] exImage = some o ∧ ¬ LinksOk o.img := by
  have hsome : (ln true [47, 102] [47, 103] exImage).map (fun o =>
      (inUse o.img 16, iLinksCount o.img 16, blockList o.img 2,
        decide (9264 ∈ blockEntries o.img 9), deInode o.img 9264)) =
      some (true, 0, [9], true, 16) := by decide +kernel
  obtain ⟨o, ho, heq⟩ := Option.map_eq_some_iff.1 hsome
  simp only [Prod.mk.injEq, decide_eq_true_eq] at heq
  obtain ⟨huse, hcount, hlist, hmem, hino⟩ := heq
  refine ⟨exImage_sound, exImage_linksOk, o, ho, fun h => ?_⟩
  have hzero := h 16 huse
  rw [hcount] at hzero
  refine (Space.refs_eq_zero_iff (entries_finite o.img)).1 hzero.symm 9264 ?_ hino
  refine mem_entries.2 ⟨ext2RootIno, 9, .root, ?_, hmem, ?_⟩
  · show 9 ∈ blockList o.img 2
    rw [hlist]
    exact List.mem_singleton_self 9
  · rw [isLive, hino]
    rfl

end Cscc69.Ext2
