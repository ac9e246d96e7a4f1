import Cscc69.Ext2.Entries
import Cscc69.Ext2.Traverse

/-!
# Room for an entry

`create_link` looks for the first entry of the parent's block that is longer than it needs by the
room of the new entry, cuts it there and writes the new entry behind. Two estimates decide: what
an entry needs itself (`dirSize`) and what the new one asks for (`entrySize`).

* For files and directories the estimate is high enough, and the block stays in order with the
  new entry among the old ones (`createLink_sound`).
* It is too high, so that an entry may be refused for which there is room (`refusal_iff`).
* For symbolic links it is the length of the name, without the header (`symlink_iff`).
-/

namespace Cscc69.Ext2

open Bytes Records

variable {img img' : Image} {t : Tables} {parent inode mode b pos q r : ℕ} {name : Name}
  {as bs : List ℕ} {e : DirEntry}

/-! ## Blocks in order -/

/-- The entries fill the block, have lengths that are multiples of four, and have room for their
names. -/
structure BlockAligned (img : Image) (b : ℕ) : Prop where
  tiles : BlockTiles img b
  aligned : ∀ pos ∈ blockEntries img b, recLen img pos % 4 = 0
  fits : ∀ pos ∈ blockEntries img b, 8 + nameLen img pos ≤ recLen img pos

/-- Among the listed blocks, `b` alone begins with the entry `.` of `parent`; it is in order. -/
structure ParentBlock (t : Tables) (img : Image) (parent b : ℕ) : Prop where
  listed : b ∈ t.dirs
  dirOf : isDirOf img parent b = true
  only : ∀ k ∈ t.dirs, isDirOf img parent k = true → k = b
  ok : BlockAligned img b

/-- The block has the old entries, each where it was, and one more. -/
def Inserted (img img' : Image) (b : ℕ) (e : DirEntry) : Prop :=
  ∃ as new bs, blockEntries img b = as ++ bs ∧ blockEntries img' b = as ++ new :: bs ∧
    entryAt img' new = e ∧ ∀ r ∈ as ++ bs, entryAt img' r = entryAt img r

/-- The entry has been added to the block, which is in order, and nothing else has changed. -/
structure WellAdded (img img' : Image) (b : ℕ) (e : DirEntry) : Prop where
  ok : BlockAligned img' b
  inserted : Inserted img img' b e
  frame : Frame (blockBytes b) img img'

theorem ParentBlock.findDirBlockPos (h : ParentBlock t img parent b) :
    findDirBlockPos t img parent = some (b * ext2BlockSize) := by
  rw [Ext2.findDirBlockPos]
  cases hfind : t.dirs.find? (isDirOf img parent) with
  | none => exact absurd h.dirOf (List.find?_eq_none.1 hfind b h.listed)
  | some k =>
    rw [h.only k (List.mem_of_find?_eq_some hfind) (List.find?_some hfind)]
    rfl

theorem roundUp_mod (n : ℕ) : roundUp n % 4 = 0 := by
  unfold roundUp
  omega

/-- A cut at a multiple of four, with room for the name, leaves the block in order. -/
theorem Cut.wellAdded (h : BlockAligned img b) (hlist : blockEntries img b = as ++ q :: bs)
    (hcut : Cut img img' b as q (q + dirSize img q) bs e)
    (hroom : dirSize img q + (8 + e.name.length) ≤ recLen img q) : WellAdded img img' b e := by
  have hafter := blockEntries_of_tiles hcut.tiles
  obtain ⟨hdir₁, hdir₂⟩ := dirSize_bounds img q
  have hq : q ∈ blockEntries img b := by simp [hlist]
  have hle := h.tiles.le_of_mem hq
  have hend := h.tiles.add_le_of_mem hq
  have hnewName : nameLen img' (q + dirSize img q) = e.name.length := by
    rw [← hcut.entry, entryAt, deName, length_read]
  -- the new entry, the one that is cut, or another one
  have hcases : ∀ r ∈ blockEntries img' b, recLen img' r % 4 = 0 ∧
      8 + nameLen img' r ≤ recLen img' r := by
    intro r hr
    have haligned := h.aligned q hq
    have hmod : dirSize img q % 4 = 0 := roundUp_mod _
    have hr' : r = q + dirSize img q ∨ r = q ∨ r ∈ as ++ bs := by
      rw [hafter] at hr
      grind
    rcases hr' with rfl | rfl | hr'
    · rw [hcut.lens.2, hnewName]
      omega
    · rw [hcut.lens.1, nameLen_of_entryAt (hcut.same r (by simp))]
      omega
    · have hmem : r ∈ blockEntries img b := by grind
      rw [hcut.others r hr', nameLen_of_entryAt (hcut.same r (by grind))]
      exact ⟨h.aligned r hmem, h.fits r hmem⟩
  refine ⟨⟨?_, fun r hr => (hcases r hr).1, fun r hr => (hcases r hr).2⟩, ?_, ?_⟩
  · rw [BlockTiles, hafter]
    exact hcut.tiles
  · refine ⟨as ++ [q], q + dirSize img q, bs, by simpa using hlist, by simpa using hafter,
      hcut.entry, ?_⟩
    simpa using hcut.same
  · refine hcut.frame.mono fun i hi => ?_
    simp only [cutBytes, blockBytes, Set.mem_union, Set.mem_Ico] at hi ⊢
    omega

/-! ## Files and directories -/

/-- **Adding a file or a directory**: `create_link` returns, and has either added the entry to the
parent's block or changed nothing. -/
theorem createLink_sound (h : ParentBlock t img parent b) (hname : name.length ≤ 255)
    (hino : inode < 2 ^ 32) (hmode : mode = ext2FtRegFile ∨ mode = ext2FtDir) :
    ∃ r, createLink t img parent inode name mode = some r ∧
      (r.1 = true → WellAdded img r.2 b ⟨inode, mode, name⟩) ∧ (r.1 = false → r.2 = img) := by
  have hmode₁ : mode < 256 := by rcases hmode with rfl | rfl <;> decide
  have hmode₂ : mode ≠ ext2FtSymlink := by rcases hmode with rfl | rfl <;> decide
  refine ⟨_, createLink_eq h.findDirBlockPos h.ok.tiles, ?_⟩
  cases hfind : (blockEntries img b).find? (hasRoom img name mode) with
  | none => exact ⟨fun hr => (by cases hr), fun _ => rfl⟩
  | some q =>
    refine ⟨fun _ => ?_, fun hr => (by cases hr)⟩
    obtain ⟨as, bs, hlist⟩ := List.append_of_mem (List.mem_of_find?_eq_some hfind)
    have hroom : dirSize img q + entrySize name mode ≤ recLen img q := by
      simpa [hasRoom] using List.find?_some hfind
    have hentry : 19 + name.length ≤ entrySize name mode := entrySize_bound hmode₂
    have hcut := cutEntry_cut h.ok.tiles h.ok.fits hlist
      (show dirSize img q + (8 + name.length) ≤ recLen img q by omega) (.inl (by omega))
      (by omega) hino hmode₁
    exact hcut.wellAdded h.ok hlist (show dirSize img q + (8 + name.length) ≤ _ by omega)

theorem exImage_parentBlock : ParentBlock exTables exImage 2 9 :=
  ⟨by decide, by decide +kernel, by decide +kernel, by decide +kernel, by decide +kernel,
    by decide +kernel⟩

theorem createLink_sound_file :
    ∃ r, createLink exTables exImage 2 16 [103] ext2FtRegFile = some r ∧
      (r.1 = true → WellAdded exImage r.2 9 ⟨16, ext2FtRegFile, [103]⟩) ∧
      (r.1 = false → r.2 = exImage) :=
  createLink_sound exImage_parentBlock (by decide) (by decide) (.inl rfl)

/-! ## Symbolic links -/

/-- The entry that is cut has room for the header and the name of the new one. The NUL after the
name has room too, or falls on a byte that is 0. -/
def LinkFits (img : Image) (name : Name) (q : ℕ) : Prop :=
  dirSize img q + (8 + name.length) < recLen img q ∨
    dirSize img q + (8 + name.length) = recLen img q ∧ img (q + recLen img q) = 0

instance (img : Image) (name : Name) (q : ℕ) : Decidable (LinkFits img name q) := by
  unfold LinkFits; infer_instance

/-- The first byte of an entry is that of its inode. -/
theorem byte_of_deInode (h : deInode img' pos = deInode img pos) : img' pos = img pos :=
  agree_of_load h pos le_rfl (by omega)

/-- A symbolic link that is cut out of the entry `q` is well added exactly if it fits. -/
theorem wellAdded_link_iff (h : BlockAligned img b) (hlist : blockEntries img b = as ++ q :: bs)
    (hroom : dirSize img q < recLen img q) (hname : name.length ≤ 255) (hino : inode < 2 ^ 32) :
    WellAdded img (cutEntry img q inode ext2FtSymlink name) b ⟨inode, ext2FtSymlink, name⟩ ↔
      LinkFits img name q := by
  have hlt : recLen img q < 65536 := load_lt _ _ _
  have hmode : ext2FtSymlink < 256 := by decide
  constructor
  · intro hadd
    obtain ⟨-, -, hnewLen, hnewName⟩ := putEntry_spec (setRecLen img q (dirSize img q))
      (q + dirSize img q) (show name.length < 256 by omega) hino hmode
      (show recLen img q - dirSize img q < 65536 by omega)
    have hnul := putEntry_nul (setRecLen img q (dirSize img q)) (q + dirSize img q) inode
      (recLen img q - dirSize img q) ext2FtSymlink name
    change recLen (cutEntry img q inode ext2FtSymlink name) _ = _ at hnewLen
    change nameLen (cutEntry img q inode ext2FtSymlink name) _ = _ at hnewName
    change cutEntry img q inode ext2FtSymlink name _ = 0 at hnul
    have hqLen : recLen (cutEntry img q inode ext2FtSymlink name) q = dirSize img q :=
      cutEntry_recLen (by omega) hino hmode
    have hq : q ∈ blockEntries img b := by simp [hlist]
    have hend := h.tiles.add_le_of_mem hq
    have hge := h.tiles.le_of_mem hq
    obtain ⟨as', new, bs', hbefore, hafter, -, hsame⟩ := hadd.inserted
    have hmem : ∀ r ∈ blockEntries img b,
        r ∈ blockEntries (cutEntry img q inode ext2FtSymlink name) b := by
      intro r hr
      rw [hbefore] at hr
      rw [hafter]
      grind
    -- the new entry is one of the block, and has room for its name
    have hnew := hadd.ok.tiles.next_mem (hmem q hq) (by omega)
    rw [hqLen] at hnew
    have hfits := hadd.ok.fits _ hnew
    rw [hnewLen, hnewName] at hfits
    by_cases heq : dirSize img q + (8 + name.length) = recLen img q
    · refine .inr ⟨heq, ?_⟩
      have hat : q + dirSize img q + 8 + name.length = q + recLen img q := by omega
      rw [hat] at hnul
      rw [← hnul]
      by_cases hnext : q + recLen img q < b * ext2BlockSize + ext2BlockSize
      · have hr := h.tiles.next_mem hq hnext
        exact (byte_of_deInode (deInode_of_entryAt (hsame _ (hbefore ▸ hr)))).symm
      · refine (hadd.frame _ fun hin => ?_).symm
        rw [blockBytes, Set.mem_Ico] at hin
        omega
    · exact .inl (by omega)
  · intro hfit
    have hnul : dirSize img q + (8 + name.length) < recLen img q ∨ img (q + recLen img q) = 0 := by
      rcases hfit with hlt' | ⟨-, hzero⟩
      · exact .inl hlt'
      · exact .inr hzero
    have hle : dirSize img q + (8 + name.length) ≤ recLen img q := by
      rcases hfit with hlt' | ⟨heq, -⟩
      · omega
      · omega
    exact (cutEntry_cut h.tiles h.fits hlist hle hnul (by omega) hino hmode).wellAdded h hlist hle

/-- **Adding a symbolic link**: what `create_link` returns 1 for is in order exactly if the first
entry with the length of the name to spare has room for the header as well. -/
theorem symlink_iff (h : ParentBlock t img parent b) (hpos : 1 ≤ name.length)
    (hname : name.length ≤ 255) (hino : inode < 2 ^ 32) :
    (∀ img', createLink t img parent inode name ext2FtSymlink = some (true, img') →
      WellAdded img img' b ⟨inode, ext2FtSymlink, name⟩) ↔
    ∀ q, (blockEntries img b).find? (fun q => dirSize img q + name.length ≤ recLen img q) =
      some q → LinkFits img name q := by
  have hfound : (fun q => decide (dirSize img q + name.length ≤ recLen img q)) =
      hasRoom img name ext2FtSymlink := rfl
  rw [createLink_eq h.findDirBlockPos h.ok.tiles, hfound]
  cases hfind : (blockEntries img b).find? (hasRoom img name ext2FtSymlink) with
  | none => exact iff_of_true (fun img' hr => by cases hr) (fun q hq => by cases hq)
  | some q =>
    obtain ⟨as, bs, hlist⟩ := List.append_of_mem (List.mem_of_find?_eq_some hfind)
    have hroom : dirSize img q + name.length ≤ recLen img q := by
      simpa [hasRoom, entrySize] using List.find?_some hfind
    have hiff : WellAdded img (cutEntry img q inode ext2FtSymlink name) b
        ⟨inode, ext2FtSymlink, name⟩ ↔ LinkFits img name q :=
      wellAdded_link_iff h.ok hlist (by omega) hname hino
    simpa [eq_comm] using hiff

/-- The last entry of the root has room for a link `g`. -/
theorem symlink_iff_root : ∃ img',
    createLink exTables exImage 2 16 [103] ext2FtSymlink = some (true, img') ∧
      WellAdded exImage img' 9 ⟨16, ext2FtSymlink, [103]⟩ := by
  have hadds : (createLink exTables exImage 2 16 [103] ext2FtSymlink).map Prod.fst =
      some true := by decide +kernel
  have hroom : (blockEntries exImage 9).find? (fun q =>
      dirSize exImage q + [(103 : UInt8)].length ≤ recLen exImage q) = some 9252 := by
    decide +kernel
  obtain ⟨⟨_, img'⟩, hrun, rfl⟩ := Option.map_eq_some_iff.1 hadds
  refine ⟨img', hrun, (symlink_iff exImage_parentBlock (by decide) (by decide) (by decide)).2
    (fun q hq => ?_) img' hrun⟩
  obtain rfl := Option.some.inj (hroom.symm.trans hq)
  decide +kernel

/-- The root without the entry of `/a`, so that `..` has 12 bytes to spare. -/
def exGap : Image := unlinkEntry exImage (some 9228) 9240

theorem exGap_parentBlock : ParentBlock exTables exGap 2 9 :=
  ⟨by decide, by decide +kernel, by decide +kernel, by decide +kernel, by decide +kernel,
    by decide +kernel⟩

/-- A link with a name of ten bytes is put there and runs into the next entry. -/
theorem symlink_overflows : ParentBlock exTables exGap 2 9 ∧
    ∃ img', createLink exTables exGap 2 16 (List.replicate 10 103) ext2FtSymlink =
        some (true, img') ∧ recLen img' 9240 = 12 ∧ nameLen img' 9240 = 10 ∧
      ¬ WellAdded exGap img' 9 ⟨16, ext2FtSymlink, List.replicate 10 103⟩ := by
  have hrun : (createLink exTables exGap 2 16 (List.replicate 10 103) ext2FtSymlink).map (fun r =>
      (r.1, recLen r.2 9240, nameLen r.2 9240, decide (9240 ∈ blockEntries r.2 9))) =
      some (true, 12, 10, true) := by decide +kernel
  obtain ⟨r, hr, hfacts⟩ := Option.map_eq_some_iff.1 hrun
  simp only [Prod.mk.injEq, decide_eq_true_eq] at hfacts
  obtain ⟨htrue, hlen, hname, hmem⟩ := hfacts
  refine ⟨exGap_parentBlock, r.2, ?_, hlen, hname, fun h => ?_⟩
  · rw [hr, ← htrue]
  · have hfits := h.ok.fits 9240 hmem
    omega

/-! ## Refusals -/

/-- The least room of an entry with a name of `n` bytes: header and name, up to a multiple of
four. -/
def leastSize (n : ℕ) : ℕ := (8 + n + 3) / 4 * 4

/-- What the two estimates of `create_link` add to the least rooms of an entry with a name of `n`
bytes and of a new one with a name of `m` bytes. -/
def excess (n m : ℕ) : ℕ := (if n % 4 = 0 then 4 else 0) + if m % 4 = 1 then 8 else 12

theorem hasRoom_iff (hmode : mode ≠ ext2FtSymlink) : hasRoom img name mode q = true ↔
    leastSize (nameLen img q) + leastSize name.length + excess (nameLen img q) name.length ≤
      recLen img q := by
  unfold hasRoom dirSize entrySize roundUp leastSize excess
  rw [decide_eq_true_eq, if_neg hmode]
  split <;> split <;> omega

/-- **Refusing a file or a directory**: `create_link` returns 0 only when no entry leaves the least
room of the new one, exactly if none does or one leaves enough for the estimates. -/
theorem refusal_iff (h : ParentBlock t img parent b)
    (hmode : mode = ext2FtRegFile ∨ mode = ext2FtDir) :
    (∀ img', createLink t img parent inode name mode = some (false, img') →
      ∀ q ∈ blockEntries img b,
        recLen img q < leastSize (nameLen img q) + leastSize name.length) ↔
    (∀ q ∈ blockEntries img b, recLen img q < leastSize (nameLen img q) + leastSize name.length) ∨
    ∃ q ∈ blockEntries img b, leastSize (nameLen img q) + leastSize name.length +
      excess (nameLen img q) name.length ≤ recLen img q := by
  have hmode' : mode ≠ ext2FtSymlink := by rcases hmode with rfl | rfl <;> decide
  have hroom : ∀ q, leastSize (nameLen img q) + leastSize name.length +
      excess (nameLen img q) name.length ≤ recLen img q ↔ hasRoom img name mode q = true :=
    fun q => (hasRoom_iff hmode').symm
  simp only [hroom]
  rw [createLink_eq h.findDirBlockPos h.ok.tiles]
  cases hfind : (blockEntries img b).find? (hasRoom img name mode) with
  | none =>
    have hnone : ¬ ∃ q ∈ blockEntries img b, hasRoom img name mode q = true := by
      simpa using hfind
    simp [hnone]
  | some q =>
    have hsome : ∃ q ∈ blockEntries img b, hasRoom img name mode q = true :=
      ⟨q, List.mem_of_find?_eq_some hfind, List.find?_some hfind⟩
    exact iff_of_true (fun img' hr => by cases hr) (.inr hsome)

/-- The root with four files, of which only the last has bytes to spare, twelve of them. -/
def exFull : Image :=
  exEntry 9 768 15 256 ext2FtRegFile (List.replicate 236 100) <|
  exEntry 9 520 15 248 ext2FtRegFile (List.replicate 240 99) <|
  exEntry 9 272 15 248 ext2FtRegFile (List.replicate 240 98) <|
  exEntry 9 24 15 248 ext2FtRegFile (List.replicate 240 97) exImage

theorem exFull_parentBlock : ParentBlock exTables exFull 2 9 :=
  ⟨by decide, by decide +kernel, by decide +kernel, by decide +kernel, by decide +kernel,
    by decide +kernel⟩

/-- A file with a name of 100 bytes is refused, and there is no room for it. -/
theorem refusal_iff_root :
    createLink exTables exFull 2 16 (List.replicate 100 103) ext2FtRegFile =
        some (false, exFull) ∧
      ∀ q ∈ blockEntries exFull 9, recLen exFull q <
        leastSize (nameLen exFull q) + leastSize (List.replicate 100 (103 : UInt8)).length := by
  have hfind : (blockEntries exFull 9).find?
      (hasRoom exFull (List.replicate 100 103) ext2FtRegFile) = none := by decide +kernel
  have hrun : createLink exTables exFull 2 16 (List.replicate 100 103) ext2FtRegFile =
      some (false, exFull) := by
    rw [createLink_eq exFull_parentBlock.findDirBlockPos exFull_parentBlock.ok.tiles, hfind]
  exact ⟨hrun,
    (refusal_iff exFull_parentBlock (.inl rfl)).2 (.inl (by decide +kernel)) exFull hrun⟩

/-- A file with a name of one byte needs twelve and is refused. -/
theorem refused_with_room : ParentBlock exTables exFull 2 9 ∧
    createLink exTables exFull 2 16 [103] ext2FtRegFile = some (false, exFull) ∧
    9984 ∈ blockEntries exFull 9 ∧
    leastSize (nameLen exFull 9984) + leastSize [(103 : UInt8)].length ≤ recLen exFull 9984 := by
  refine ⟨exFull_parentBlock, ?_, by decide +kernel, by decide +kernel⟩
  have hfind : (blockEntries exFull 9).find? (hasRoom exFull [103] ext2FtRegFile) = none := by
    decide +kernel
  rw [createLink_eq exFull_parentBlock.findDirBlockPos exFull_parentBlock.ok.tiles, hfind]

end Cscc69.Ext2
