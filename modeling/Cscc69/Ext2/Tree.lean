import Cscc69.Ext2.Unlink
import Cscc69.Lib.Naming
import Mathlib.Data.Set.Finite.Lattice

/-!
# The directory tree

The inodes and the used entries of the directories form a name space (`space`). An image is
`Sound` when every directory that is reached from the root is in order, its blocks are its own and
marked, its used entries name inodes of the table and files where they say so, and `init` lists no
directory that is not reached.

What the tools find in a sound image are blocks and entries of the directories reached
(`Sound.findDirBlockPos`, `Sound.traverse`).
-/

namespace Cscc69.Ext2

open Bytes Records Naming

/-! ## Sound images -/

/-- What the used entries name. -/
def space (img : Image) : Space ℕ ℕ where
  root := ext2RootIno
  isDir n := modeType (iMode img n) = ext2SIfdir
  places n := {pos | pos ∈ dirEntries img n ∧ isLive img pos = true}
  target := deInode img

/-- Whether the block bitmap marks a block. -/
def marked (img : Image) (b : ℕ) : Bool := bit img (bgBlockBitmap img) (b - 1)

/-- A directory in order, of at most twelve blocks. -/
structure DirSound (img : Image) (n : ℕ) : Prop where
  ends : ∃ k ≤ 12, iBlock img n k = 0
  blocks : ∀ b ∈ blockList img n, BlockOk img b
  data : ∀ b ∈ blockList img n, IsData img b ∧ b ≤ sBlocksCount img ∧ marked img b = true
  dots : ∀ b ∈ blockList img n, ∀ m, m ≠ 0 → isDirOf img m b = true → m = n

structure Sound (img : Image) : Prop where
  geometry : Geometry img
  tables : TablesInside img
  root : (space img).isDir ext2RootIno
  rootLe : ext2RootIno ≤ sInodesCount img
  dirs : ∀ n, (space img).Reach n → DirSound img n
  apart : ∀ n m, (space img).Reach n → (space img).Reach m → ∀ b ∈ blockList img n,
    b ∈ blockList img m → n = m
  named : ∀ pos ∈ (space img).entries, deInode img pos ≤ sInodesCount img
  types : ∀ pos ∈ (space img).entries, IsFileEntry img pos → ¬ (space img).isDir (deInode img pos)
  listed : ∀ n ∈ listedDirs img, (space img).Reach n
  reserved : ∀ b, 1 ≤ b → b ≤ sBlocksCount img → ¬ IsData img b → marked img b = true

variable {img img' : Image} {n m b d pos q r : ℕ} {name path c filename : Name} {t : Tables}
  {env : Env} {gone come : Set ℕ}

theorem mem_places : q ∈ (space img).places n ↔
    ∃ b ∈ blockList img n, q ∈ blockEntries img b ∧ isLive img q = true := by
  show q ∈ dirEntries img n ∧ _ ↔ _
  rw [dirEntries, List.mem_flatMap]
  constructor
  · intro h
    obtain ⟨⟨b, hb, hq⟩, hlive⟩ := h
    exact ⟨b, hb, hq, hlive⟩
  · intro h
    obtain ⟨b, hb, hq, hlive⟩ := h
    exact ⟨⟨b, hb, hq⟩, hlive⟩

/-- An entry is in a block of a directory that is reached. -/
theorem mem_entries : q ∈ (space img).entries ↔
    ∃ n b, (space img).Reach n ∧ b ∈ blockList img n ∧ q ∈ blockEntries img b ∧
      isLive img q = true := by
  constructor
  · intro h
    obtain ⟨n, hn, hq⟩ := h
    obtain ⟨b, hb, hqb, hlive⟩ := mem_places.1 hq
    exact ⟨n, b, hn, hb, hqb, hlive⟩
  · intro h
    obtain ⟨n, b, hn, hb, hqb, hlive⟩ := h
    exact ⟨n, hn, mem_places.2 ⟨b, hb, hqb, hlive⟩⟩

theorem deInode_lt (img : Image) (pos : ℕ) : deInode img pos < 2 ^ 32 := load_lt _ _ _

/-- There are finitely many entries in any image. -/
theorem entries_finite (img : Image) : (space img).entries.Finite := by
  have hreach : ∀ n, (space img).Reach n → n < 2 ^ 32 := by
    intro n hn
    rcases hn.cases_named with heq | ⟨pos, -, rfl⟩
    · rw [heq]
      show ext2RootIno < 2 ^ 32
      decide
    · exact deInode_lt img pos
  refine (Set.Finite.biUnion (Set.finite_lt_nat (2 ^ 32)) fun n _ =>
    List.finite_toSet (dirEntries img n)).subset fun q hq => ?_
  obtain ⟨n, hn, hqn⟩ := hq
  exact Set.mem_biUnion (hreach n hn) hqn.1

theorem Sound.range (h : Sound img) (hn : (space img).Reach n) :
    1 ≤ n ∧ n ≤ sInodesCount img := by
  rcases hn.cases_named with heq | ⟨pos, hpos, rfl⟩
  · rw [heq]
    exact ⟨show 1 ≤ ext2RootIno by decide, h.rootLe⟩
  · obtain ⟨_, _, _, _, _, hlive⟩ := mem_entries.1 hpos
    exact ⟨Nat.one_le_iff_ne_zero.2 (deInode_ne_zero hlive), h.named pos hpos⟩

theorem Sound.isDir (h : Sound img) (hn : (space img).Reach n) : (space img).isDir n := by
  cases hn with
  | root => exact h.root
  | step _ _ hdir => exact hdir

/-- What a path leads to is the inode of an entry. -/
theorem walk_entry {names : List Name} (hne : names ≠ []) (hn : (space img).Reach n)
    (h : walk img n names = some m) : ∃ pos ∈ (space img).entries, deInode img pos = m := by
  induction names generalizing n with
  | nil => exact absurd rfl hne
  | cons name names ih =>
    rw [walk_cons] at h
    obtain ⟨m', hlookup, hwalk⟩ := Option.bind_eq_some_iff.1 h
    obtain ⟨-, pos, hpos, hlive, rfl⟩ := lookup_entry hlookup
    have hplace : pos ∈ (space img).places n := ⟨hpos, hlive⟩
    cases names with
    | nil =>
      obtain rfl := Option.some.inj hwalk
      exact ⟨pos, hn.mem_entries hplace, rfl⟩
    | cons name' names' =>
      have hdir' := walk_isDirectory hwalk
      rw [isDirectory, Bool.and_eq_true, beq_iff_eq] at hdir'
      exact ih (by simp) (hn.step hplace hdir'.2) hwalk

/-! ## What the tools find -/

/-- Each block that `init` lists is one of a directory that is reached. -/
theorem Sound.mem_dirs (h : Sound img) (hinit : init img = some t) (hb : b ∈ t.dirs) :
    ∃ n, (space img).Reach n ∧ b ∈ blockList img n := by
  rw [init_dirs hinit fun n hn => (h.dirs n (h.listed n hn)).ends] at hb
  obtain ⟨n, hn, hbn⟩ := List.mem_flatMap.1 hb
  exact ⟨n, h.listed n hn, hbn⟩

theorem Sound.blockOk (h : Sound img) (hinit : init img = some t) (hb : b ∈ t.dirs) :
    BlockOk img b := by
  obtain ⟨n, hn, hbn⟩ := h.mem_dirs hinit hb
  exact (h.dirs n hn).blocks b hbn

/-- A used entry of a listed block is an entry. -/
theorem Sound.entry (h : Sound img) (hinit : init img = some t) (hb : b ∈ t.dirs)
    (hq : q ∈ blockEntries img b) (hlive : isLive img q = true) : q ∈ (space img).entries := by
  obtain ⟨n, hn, hbn⟩ := h.mem_dirs hinit hb
  exact mem_entries.2 ⟨n, b, hn, hbn, hq, hlive⟩

/-- `find_dir_block_pos` finds a block of the directory. -/
theorem Sound.findDirBlockPos (h : Sound img) (hinit : init img = some t) {parent base : ℕ}
    (hne : parent ≠ 0) (hbase : findDirBlockPos t img parent = some base) :
    ∃ b ∈ blockList img parent, (space img).Reach parent ∧ base = b * ext2BlockSize := by
  obtain ⟨b, hfind, rfl⟩ := Option.map_eq_some_iff.1 hbase
  obtain ⟨n, hn, hbn⟩ := h.mem_dirs hinit (List.mem_of_find?_eq_some hfind)
  obtain rfl := (h.dirs n hn).dots b hbn parent hne (List.find?_some hfind)
  exact ⟨b, hbn, hn, rfl⟩

theorem searchDirs_mem {entered found : ℕ → Bool} {bs : List ℕ} {f : ℕ × ℕ}
    (htiles : ∀ b ∈ bs, BlockTiles img b)
    (hfound : searchDirs img entered found bs = some (some f)) :
    ∃ b ∈ bs, f.2 ∈ blockEntries img b := by
  rw [searchDirs_eq fun b hb _ => htiles b hb] at hfound
  obtain ⟨b, hb, hpair⟩ := List.exists_of_findSome?_eq_some (Option.some.inj hfound)
  refine ⟨b, List.mem_of_mem_filter hb, ?_⟩
  rcases (findPair_some hpair).2 with ⟨cs, hcs, -⟩ | ⟨as, cs, hcs⟩
  · simp [hcs]
  · simp [hcs]

/-- `traverse` comes to the root, to an inode that an entry names, or to nothing. -/
theorem Sound.traverse (h : Sound img) (hinit : init img = some t) {cs : List Name}
    (hr : traverse t img filename n c cs = some r) (hne : r ≠ 0) :
    r = ext2RootIno ∨ ∃ pos ∈ (space img).entries, deInode img pos = r := by
  induction cs generalizing n c with
  | nil =>
    rw [traverse.eq_def] at hr
    simp only at hr
    split at hr
    · exact .inl (Option.some.inj hr).symm
    · split at hr
      · cases hr
      · exact absurd (Option.some.inj hr).symm hne
      · rename_i pre pos hsearch
        split at hr
        · obtain ⟨b, hb, hpos⟩ := searchDirs_mem (fun b hb => (h.blockOk hinit hb).tiles) hsearch
          obtain rfl := Option.some.inj hr
          exact .inr ⟨pos, h.entry hinit hb hpos (by simpa [isLive] using hne), rfl⟩
        · cases hr
  | cons c' cs ih =>
    rw [traverse.eq_def] at hr
    simp only at hr
    split at hr
    · exact .inl (Option.some.inj hr).symm
    · split at hr
      · cases hr
      · exact absurd (Option.some.inj hr).symm hne
      · rename_i pre pos hsearch
        split at hr
        · obtain ⟨b, hb, hpos⟩ := searchDirs_mem (fun b hb => (h.blockOk hinit hb).tiles) hsearch
          obtain rfl := Option.some.inj hr
          exact .inr ⟨pos, h.entry hinit hb hpos (by simpa [isLive] using hne), rfl⟩
        · exact ih hr

/-! ## The example -/

theorem exImage_reach : (space exImage).Reach n ↔ n ∈ [2, 12, 13] := by
  have hclosed : ∀ n ∈ [2, 12, 13], ∀ q ∈ dirEntries exImage n, isLive exImage q = true →
      modeType (iMode exImage (deInode exImage q)) = ext2SIfdir →
      deInode exImage q ∈ [2, 12, 13] := by decide +kernel
  constructor
  · intro hn
    refine hn.closed (C := (· ∈ [2, 12, 13])) (show ext2RootIno ∈ [2, 12, 13] by decide) ?_
    exact fun n q hn hq hdir => hclosed n hn q hq.1 hq.2 hdir
  · have hroot : (space exImage).Reach 2 := .root
    have ha : (space exImage).Reach 12 := by
      have htarget : (space exImage).target 9240 = 12 :=
        show deInode exImage 9240 = 12 by decide +kernel
      rw [← htarget]
      refine hroot.step ?_ ?_
      · exact show 9240 ∈ dirEntries exImage 2 ∧ isLive exImage 9240 = true by decide +kernel
      · rw [htarget]
        exact show modeType (iMode exImage 12) = ext2SIfdir by decide +kernel
    have hb : (space exImage).Reach 13 := by
      have htarget : (space exImage).target 10264 = 13 :=
        show deInode exImage 10264 = 13 by decide +kernel
      rw [← htarget]
      refine ha.step ?_ ?_
      · exact show 10264 ∈ dirEntries exImage 12 ∧ isLive exImage 10264 = true by decide +kernel
      · rw [htarget]
        exact show modeType (iMode exImage 13) = ext2SIfdir by decide +kernel
    intro hn
    simp only [List.mem_cons, List.not_mem_nil, or_false] at hn
    rcases hn with rfl | rfl | rfl
    · exact hroot
    · exact ha
    · exact hb

/-- The used entries of the example. -/
def exEntries : List ℕ := [2, 12, 13].flatMap fun n =>
  (dirEntries exImage n).filter (isLive exImage)

theorem exImage_entries : q ∈ (space exImage).entries ↔ q ∈ exEntries := by
  simp only [exEntries, List.mem_flatMap, List.mem_filter]
  exact exists_congr fun n => and_congr_left fun _ => exImage_reach

theorem exImage_sound : Sound exImage := by
  have hlists : blockList exImage 2 = [9] ∧ blockList exImage 12 = [10] ∧
      blockList exImage 13 = [11] := by decide +kernel
  obtain ⟨h₂, h₁₂, h₁₃⟩ := hlists
  have hdirs : ∀ n ∈ [2, 12, 13], isDirectory exImage n = true ∧ iBlock exImage n 1 = 0 ∧
      ∀ b ∈ blockList exImage n, b ≤ sBlocksCount exImage ∧ marked exImage b = true ∧
        deInode exImage (b * ext2BlockSize) = n := by decide +kernel
  refine ⟨exImage_geometry, ⟨by decide +kernel, by decide +kernel, by decide +kernel⟩,
    show modeType (iMode exImage 2) = ext2SIfdir by decide +kernel,
    by decide +kernel, fun n hn => ?_, fun n m hn hm b hb hb' => ?_, fun q hq => ?_,
    fun q hq => ?_, fun n hn => ?_, fun b hb₁ hb₂ hno => ?_⟩
  · obtain ⟨hdir, hend, hall⟩ := hdirs n (exImage_reach.1 hn)
    refine ⟨⟨1, by decide, hend⟩, fun b hb => (exImage_blocks hdir hb).1,
      fun b hb => ⟨(exImage_blocks hdir hb).2, (hall b hb).1, (hall b hb).2.1⟩,
      fun b hb m _ hof => ?_⟩
    rw [isDirOf, (hall b hb).2.2, Bool.and_eq_true, beq_iff_eq] at hof
    exact hof.1
  · have h := (hdirs n (exImage_reach.1 hn)).2.2 b hb
    have h' := (hdirs m (exImage_reach.1 hm)).2.2 b hb'
    rw [← h.2.2, h'.2.2]
  · have hall : ∀ q ∈ exEntries, deInode exImage q ≤ sInodesCount exImage := by decide +kernel
    exact hall q (exImage_entries.1 hq)
  · have hall : ∀ q ∈ exEntries, IsFileEntry exImage q →
        ¬ modeType (iMode exImage (deInode exImage q)) = ext2SIfdir := by decide +kernel
    exact hall q (exImage_entries.1 hq)
  · have hall : listedDirs exImage = [2, 12, 13] := by decide +kernel
    rw [hall] at hn
    exact exImage_reach.2 hn
  · have hcount : sBlocksCount exImage = 128 := by decide +kernel
    have hall : ∀ b < 129, 1 ≤ b → marked exImage b = true ∨ InImage b ∧ 3 ≤ b ∧
        b ≠ bgBlockBitmap exImage ∧ b ≠ bgInodeBitmap exImage ∧
        tableEnd exImage ≤ b * ext2BlockSize := by decide +kernel
    rcases hall b (by omega) hb₁ with hmarked | ⟨h₁, h₂, h₃, h₄, h₅⟩
    · exact hmarked
    · exact absurd ⟨h₁, h₂, h₃, h₄, .inr h₅⟩ hno

end Cscc69.Ext2
