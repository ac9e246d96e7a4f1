import Cscc69.Ext2.Tools

/-!
# Directories

What the image means, apart from the tools: which inodes are directories, the entries of a
directory in order, and the walk that looks up the components of a path one after the other. An
entry with inode 0 is not in use.

`DirOk` is a directory as it should be. `init` lists the blocks of the root and of the directories
from number 12 on (`init_dirs`); a directory below, such as lost+found, is not among them.
-/

namespace Cscc69.Ext2

open Bytes Records

/-! ## Inodes -/

def inUse (img : Image) (n : ℕ) : Bool :=
  1 ≤ n && n ≤ sInodesCount img && bit img (bgInodeBitmap img) (n - 1)

def isDirectory (img : Image) (n : ℕ) : Bool :=
  inUse img n && modeType (iMode img n) == ext2SIfdir

/-- The first twelve block pointers, up to the first that is 0. -/
def blockList (img : Image) (n : ℕ) : List ℕ :=
  ((List.range 12).map (iBlock img n)).takeWhile (· ≠ 0)

/-! ## Entries -/

/-- Where the entries of a block begin, unused ones included. -/
def blockEntries (img : Image) (block : ℕ) : List ℕ :=
  positions (recLen img) (block * ext2BlockSize + ext2BlockSize) ext2BlockSize
    (block * ext2BlockSize)

def dirEntries (img : Image) (n : ℕ) : List ℕ := (blockList img n).flatMap (blockEntries img)

/-- Whether the entry at `pos` is in use. -/
def isLive (img : Image) (pos : ℕ) : Bool := deInode img pos != 0

/-- The inode that `name` has in directory `n`. -/
def lookup (img : Image) (n : ℕ) (name : Name) : Option ℕ :=
  if isDirectory img n then
    ((dirEntries img n).find? fun pos => isLive img pos && deName img pos == name).map (deInode img)
  else none

/-- Look up the components of a path one after the other, from directory `n` on. -/
def walk (img : Image) : ℕ → List Name → Option ℕ
  | n, [] => some n
  | n, name :: names => (lookup img n name).bind fun m => walk img m names

/-- The records of a block fill it. -/
def BlockTiles (img : Image) (block : ℕ) : Prop :=
  Tiles (recLen img) (block * ext2BlockSize) (block * ext2BlockSize + ext2BlockSize)
    (blockEntries img block)

instance (img : Image) (block : ℕ) : Decidable (BlockTiles img block) := by
  unfold BlockTiles; infer_instance

/-- A directory as it should be: its block pointers end, the entries fill its blocks, and the
first of them is `.`, which names the directory; no other block begins so. -/
structure DirOk (img : Image) (n : ℕ) : Prop where
  ends : ∃ k ≤ 12, iBlock img n k = 0
  tiles : ∀ b ∈ blockList img n, BlockTiles img b
  dot : ∃ b bs, blockList img n = b :: bs ∧ deInode img (b * ext2BlockSize) = n ∧
    deName img (b * ext2BlockSize) = [Ext2.dot] ∧ isDotAt img (b * ext2BlockSize + 8) = true ∧
    ∀ k ∈ bs, isDotAt img (k * ext2BlockSize + 8) = false

variable {img : Image} {n m b pos : ℕ} {name : Name} {t : Tables}

theorem inUse_iff : inUse img n = true ↔
    1 ≤ n ∧ n ≤ sInodesCount img ∧ bit img (bgInodeBitmap img) (n - 1) = true := by
  simp only [inUse, Bool.and_eq_true, decide_eq_true_eq, and_assoc]

theorem isDirectory_zero (img : Image) : isDirectory img 0 = false := by
  simp [isDirectory, inUse]

/-- What is looked up is the inode of a used entry. -/
theorem lookup_entry {m : ℕ} (h : lookup img n name = some m) : isDirectory img n = true ∧
    ∃ pos ∈ dirEntries img n, isLive img pos = true ∧ deInode img pos = m := by
  unfold lookup at h
  split at h
  · rename_i hdir
    obtain ⟨pos, hfind, rfl⟩ := Option.map_eq_some_iff.1 h
    have hfound := List.find?_some hfind
    rw [Bool.and_eq_true] at hfound
    exact ⟨hdir, pos, List.mem_of_find?_eq_some hfind, hfound.1, rfl⟩
  · cases h

theorem lookup_some {m : ℕ} (h : lookup img n name = some m) :
    isDirectory img n = true ∧ m ≠ 0 := by
  obtain ⟨hdir, pos, -, hlive, rfl⟩ := lookup_entry h
  exact ⟨hdir, by simpa [isLive] using hlive⟩

/-- A walk never ends at inode 0. -/
theorem walk_ne_zero {names : List Name} (hn : n ≠ 0) (h : walk img n names = some m) :
    m ≠ 0 := by
  induction names generalizing n with
  | nil =>
    obtain rfl := Option.some.inj h
    exact hn
  | cons name names ih =>
    obtain ⟨m', hm', h⟩ := Option.bind_eq_some_iff.1 h
    exact ih (lookup_some hm').2 h

/-! ## What `init` lists -/

/-- The inode numbers that `init` takes into account, if they are in use. -/
def isVisible (n : ℕ) : Bool := n == ext2RootIno || 12 ≤ n

theorem mem_usedInodes {i : ℕ} : i ∈ usedInodes img ↔
    i = 1 ∨ 10 < i ∧ i < sInodesCount img ∧ bit img (bgInodeBitmap img) i = true := by
  unfold usedInodes
  rw [List.mem_cons, List.mem_filter, List.mem_range, Bool.and_eq_true, decide_eq_true_eq]
  constructor
  · rintro (h | ⟨hlt, hbit, hi⟩)
    · exact .inl h
    · exact .inr ⟨hi, hlt, hbit⟩
  · rintro (h | ⟨hi, hlt, hbit⟩)
    · exact .inl h
    · exact .inr ⟨hlt, hbit, hi⟩

/-- The loop of `init` over a block array that ends in time. -/
theorem blockWords_eq {fuel a c : ℕ} {ws : List ℕ} (h : blockWords img fuel a = some ws)
    (hend : ∃ k ≤ c, load img (a + 4 * k) 4 = 0) :
    ws = ((List.range c).map fun k => load img (a + 4 * k) 4).takeWhile (· ≠ 0) := by
  induction c generalizing a fuel ws with
  | zero =>
    obtain ⟨k, hk, hz⟩ := hend
    obtain rfl : k = 0 := by omega
    obtain _ | fuel := fuel
    · cases h
    · have hz : load img a 4 = 0 := hz
      rw [blockWords, if_pos hz] at h
      exact (Option.some.inj h).symm
  | succ c ih =>
    obtain _ | fuel := fuel
    · cases h
    rw [blockWords] at h
    rw [List.range_succ_eq_map, List.map_cons, List.map_map, List.takeWhile_cons]
    split at h
    · rename_i hz
      rw [if_neg (by simpa using hz)]
      exact (Option.some.inj h).symm
    · rename_i hz
      obtain ⟨ws', hws', rfl⟩ := Option.map_eq_some_iff.1 h
      have hend' : ∃ k ≤ c, load img (a + 4 + 4 * k) 4 = 0 := by
        obtain ⟨k, hk, hkz⟩ := hend
        obtain _ | k := k
        · exact absurd hkz hz
        · exact ⟨k, by omega, by rw [← hkz]; congr 1; omega⟩
      rw [if_pos (by simpa using hz), ih hws' hend']
      refine congrArg₂ _ rfl (congrArg _ (List.map_congr_left fun k _ => ?_))
      show load img (a + 4 + 4 * k) 4 = load img (a + 4 * (k + 1)) 4
      congr 1
      omega

/-- What `init` lists for the inodes with the indices `is`. -/
theorem dirBlocks_eq {is bs : List ℕ} (h : dirBlocks img is = some bs)
    (hends : ∀ i ∈ is, modeType (iMode img (i + 1)) = ext2SIfdir →
      ∃ k ≤ 12, iBlock img (i + 1) k = 0) :
    bs = (is.filter fun i => modeType (iMode img (i + 1)) = ext2SIfdir).flatMap fun i =>
      blockList img (i + 1) := by
  induction is generalizing bs with
  | nil => exact (Option.some.inj h).symm
  | cons i is ih =>
    rw [dirBlocks] at h
    split at h
    · cases h
    · rename_i ws hws
      obtain ⟨bs', hbs', rfl⟩ := Option.map_eq_some_iff.1 h
      have ih := ih hbs' fun j hj => hends j (List.mem_cons_of_mem i hj)
      split
      · rename_i hdir
        have hlist : ws = blockList img (i + 1) :=
          blockWords_eq hws (hends i List.mem_cons_self hdir)
        rw [List.filter_cons_of_pos (by simpa using hdir), List.flatMap_cons, ih, hlist]
      · rename_i hdir
        rw [List.filter_cons_of_neg (by simpa using hdir), ih]

theorem init_some (h : init img = some t) :
    t.inum = usedInodes img ∧ (usedInodes img).length ≤ 32 ∧
      dirBlocks img (usedInodes img) = some t.dirs := by
  unfold init at h
  split at h
  · cases h
  · rename_i hlen
    split at h
    · cases h
    · rename_i dirs hdirs
      split at h
      · cases h
      · obtain rfl := Option.some.inj h
        exact ⟨rfl, by omega, hdirs⟩

/-- The directories of which `init` lists the blocks, in that order. -/
def listedDirs (img : Image) : List ℕ :=
  ((usedInodes img).filter fun i => modeType (iMode img (i + 1)) = ext2SIfdir).map (· + 1)

theorem mem_listedDirs : n ∈ listedDirs img ↔
    (n = ext2RootIno ∨ 12 ≤ n ∧ inUse img n = true) ∧ modeType (iMode img n) = ext2SIfdir := by
  simp only [listedDirs, List.mem_map, List.mem_filter, mem_usedInodes, decide_eq_true_eq, inUse,
    Bool.and_eq_true, ext2RootIno]
  constructor
  · intro h
    obtain ⟨i, ⟨rfl | ⟨hi, hlt, hbit⟩, hmode⟩, rfl⟩ := h
    · exact ⟨.inl rfl, hmode⟩
    · exact ⟨.inr ⟨by omega, ⟨by omega, by omega⟩, hbit⟩, hmode⟩
  · intro h
    obtain ⟨rfl | ⟨hn, ⟨-, hle⟩, hbit⟩, hmode⟩ := h
    · exact ⟨1, ⟨.inl rfl, hmode⟩, rfl⟩
    · have heq : n - 1 + 1 = n := by omega
      exact ⟨n - 1, ⟨.inr ⟨by omega, by omega, hbit⟩, by rw [heq]; exact hmode⟩, heq⟩

/-- **What `init` lists**: the blocks of the root and of the directories from number 12 on. -/
theorem init_dirs (h : init img = some t)
    (hends : ∀ n ∈ listedDirs img, ∃ k ≤ 12, iBlock img n k = 0) :
    t.dirs = (listedDirs img).flatMap (blockList img) := by
  obtain ⟨-, -, hblocks⟩ := init_some h
  rw [dirBlocks_eq hblocks, listedDirs, List.flatMap_map]
  intro i hi hmode
  refine hends _ (List.mem_map_of_mem (List.mem_filter.2 ⟨hi, ?_⟩))
  simpa using hmode

/-- With the root in use, these are the visible directories. -/
theorem mem_listedDirs_iff (hroot : inUse img ext2RootIno = true) :
    n ∈ listedDirs img ↔ isVisible n = true ∧ isDirectory img n = true := by
  rw [mem_listedDirs]
  simp only [isVisible, isDirectory, Bool.or_eq_true, Bool.and_eq_true, beq_iff_eq,
    decide_eq_true_eq]
  constructor
  · intro h
    obtain ⟨rfl | ⟨hn, huse⟩, hmode⟩ := h
    · exact ⟨.inl rfl, hroot, hmode⟩
    · exact ⟨.inr hn, huse, hmode⟩
  · intro h
    obtain ⟨rfl | hn, huse, hmode⟩ := h
    · exact ⟨.inl rfl, hmode⟩
    · exact ⟨.inr ⟨hn, huse⟩, hmode⟩

/-! ## The loops over blocks -/

/-- The loop over a block that is filled. -/
theorem scanBlock_eq (found : ℕ → Bool) (h : BlockTiles img b) :
    scanBlock img found b = some (findPair found (b * ext2BlockSize) (blockEntries img b)) := by
  have hsize : ext2BlockSize = 1024 := rfl
  refine Tiles.scan_eq h (by omega) ?_ ?_ ?_ _
  · simp [atBlockEnd, hsize]
  · intro q hlt hlt'
    rw [hsize] at hlt hlt'
    simp only [atBlockEnd, hsize, beq_eq_false_iff_ne]
    omega
  · have himage : imageSize = 131072 := rfl
    omega

variable {entered found : ℕ → Bool} {bs : List ℕ}

/-- The first block in which something is found. -/
theorem searchDirs_eq (htiles : ∀ b ∈ bs, entered b = true → BlockTiles img b) :
    searchDirs img entered found bs = some ((bs.filter entered).findSome? fun b =>
      findPair found (b * ext2BlockSize) (blockEntries img b)) := by
  induction bs with
  | nil => rfl
  | cons b bs ih =>
    have ih := ih fun b' hb' => htiles b' (List.mem_cons_of_mem b hb')
    rw [searchDirs]
    split
    · rename_i hen
      rw [scanBlock_eq found (htiles b List.mem_cons_self hen), List.filter_cons_of_pos hen,
        List.findSome?_cons]
      cases findPair found (b * ext2BlockSize) (blockEntries img b) with
      | none => exact ih
      | some r => rfl
    · rename_i hen
      rw [List.filter_cons_of_neg hen]
      exact ih

/-- The entry found in the blocks. -/
theorem findSome?_findPair (img : Image) (found : ℕ → Bool) (bs : List ℕ) :
    (bs.findSome? fun b => findPair found (b * ext2BlockSize) (blockEntries img b)).map Prod.snd =
      (bs.flatMap (blockEntries img)).find? found := by
  induction bs with
  | nil => rfl
  | cons b bs ih =>
    have hsnd := findPair_snd found (b * ext2BlockSize) (blockEntries img b)
    rw [List.findSome?_cons, List.flatMap_cons, List.find?_append, ← hsnd]
    cases findPair found (b * ext2BlockSize) (blockEntries img b) with
    | none => exact ih
    | some r => rfl

end Cscc69.Ext2
