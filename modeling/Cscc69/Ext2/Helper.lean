import Cscc69.Ext2.Layout

/-!
# helper.c

The functions that the tools share. `init` looks at the inode bitmap and lists the inodes in use
and the blocks of the directories among them; the searches for a directory or an entry go through
that list. A function that crashes, writes outside its arrays or never returns has no result.

`inum[i]` is read beyond the inodes that `init` has stored there; what the memory holds beyond the
array itself is a parameter (`Env.beyond`), as is the time and other memory that is never
initialized.
-/

namespace Cscc69.Ext2

open Bytes Records

/-- What a run finds outside the image. -/
structure Env where
  /-- `time(NULL)` -/
  now : ℕ
  /-- the `int`s from `inum[32]` on -/
  beyond : ℕ → ℕ
  /-- the memory from the uninitialized `buffer` of `copy` on -/
  stack : Mem
  /-- what stands after the bytes of the names that `remove_r` allocates, up to a NUL -/
  garbage : ℕ → Name

/-- The two arrays that `init` fills in, as far as it does. -/
structure Tables where
  dirs : List ℕ
  inum : List ℕ
  deriving DecidableEq

/-- `inum[i]`; the array has 32 elements, which are zero at first. -/
def Tables.inumAt (t : Tables) (env : Env) (i : ℕ) : ℕ :=
  if i < 32 then t.inum.getD i 0 else env.beyond (i - 32)

/-! ## `init` -/

/-- The loop over a block array: the words from `a` on, up to the first zero. -/
def blockWords (img : Image) : ℕ → ℕ → Option (List ℕ)
  | 0, _ => none
  | fuel + 1, a =>
    if load img a 4 = 0 then some []
    else (blockWords img fuel (a + 4)).map (load img a 4 :: ·)

/-- The loop over the inodes in use: the blocks of the directories among them. -/
def dirBlocks (img : Image) : List ℕ → Option (List ℕ)
  | [] => some []
  | i :: is =>
    match blockWords img imageSize (inodeAddr img (i + 1) + 40) with
    | none => none
    | some ws =>
      (dirBlocks img is).map fun bs =>
        if modeType (iMode img (i + 1)) = ext2SIfdir then ws ++ bs else bs

/-- The indices of the inodes in use, 1 for the root and those above 10 that the bitmap marks. -/
def usedInodes (img : Image) : List ℕ :=
  1 :: (List.range (sInodesCount img)).filter fun i => bit img (bgInodeBitmap img) i && 10 < i

def init (img : Image) : Option Tables :=
  if 32 < (usedInodes img).length then none
  else
    match dirBlocks img (usedInodes img) with
    | none => none
    | some dirs => if 128 < dirs.length then none else some ⟨dirs, usedInodes img⟩

/-! ## Allocation -/

/-- Up to the next multiple of four, at least by one. -/
def roundUp (n : ℕ) : ℕ := n + (4 - n % 4)

/-- The number of a block that was free and is now marked, or 0. -/
def findFreeBlock (img : Image) : ℕ × Image :=
  match (List.range (sBlocksCount img)).find? fun i => !bit img (bgBlockBitmap img) i with
  | none => (0, img)
  | some i =>
    let img := setBit img (bgBlockBitmap img) i
    (i + 1, setBgFreeBlocksCount img (bgFreeBlocksCount img + 65535))

/-- The number of an inode that was free and is now marked, or 0. -/
def findFreeInode (img : Image) : ℕ × Image :=
  match (List.range (sInodesCount img)).find? fun i =>
    !bit img (bgInodeBitmap img) i && 10 < i with
  | none => (0, img)
  | some i =>
    let img := setBit img (bgInodeBitmap img) i
    (i + 1, setBgFreeInodesCount img (bgFreeInodesCount img + 65535))

/-! ## The searches -/

/-- The test of a directory block for being that of `inode`: its first entry is `.` and names
`inode`. -/
def isDirOf (img : Image) (inode block : ℕ) : Bool :=
  inode == deInode img (block * ext2BlockSize) && isDotAt img (block * ext2BlockSize + 8)

def findDirBlockPos (t : Tables) (img : Image) (inode : ℕ) : Option ℕ :=
  (t.dirs.find? (isDirOf img inode)).map (· * ext2BlockSize)

/-- `pos % EXT2_BLOCK_SIZE == 0` -/
def atBlockEnd (pos : ℕ) : Bool := pos % ext2BlockSize == 0

/-- The loop over the entries of a block up to one that is `found`. Its first entry counts as the
one before it. -/
def scanBlock (img : Image) (found : ℕ → Bool) (block : ℕ) : Option (Option (ℕ × ℕ)) :=
  scan (recLen img) atBlockEnd found imageSize (block * ext2BlockSize) (block * ext2BlockSize)

/-- The loop over the directory blocks that may be `entered`. -/
def searchDirs (img : Image) (entered found : ℕ → Bool) : List ℕ → Option (Option (ℕ × ℕ))
  | [] => some none
  | block :: blocks =>
    if entered block then
      match scanBlock img found block with
      | none => none
      | some (some r) => some (some r)
      | some none => searchDirs img entered found blocks
    else searchDirs img entered found blocks

/-- The place before the first entry of that name; the inode is not looked at. -/
def findPrePos (t : Tables) (img : Image) (_inode : ℕ) (filename : Name) : Option (Option ℕ) :=
  (searchDirs img (fun _ => true) (namesEntry img filename) t.dirs).map (Option.map Prod.fst)

/-- The first entry of that name; the inode is not looked at. -/
def findDirEntry (t : Tables) (img : Image) (_inode : ℕ) (filename : Name) :
    Option (Option ℕ) :=
  (searchDirs img (fun _ => true) (namesEntry img filename) t.dirs).map (Option.map Prod.snd)

/-- `rest` are the components that `strtok` will give after `cur`. -/
def traverse (t : Tables) (img : Image) (filename : Name) :
    ℕ → Name → List Name → Option ℕ
  | inode, cur, rest =>
    if filename = [slash] then some ext2RootIno
    else
      match searchDirs img (isDirOf img inode) (namesEntry img cur) t.dirs with
      | none => none
      | some none => some 0
      | some (some (_, pos)) =>
        if namesEntry img filename pos then some (deInode img pos)
        else
          match rest with
          -- `strtok` has no more components, and a null pointer is read
          | [] => none
          | cur :: rest => traverse t img filename (deInode img pos) cur rest
  termination_by structural _ _ rest => rest

/-! ## Links -/

/-- The entry at `pos` that `create_link` writes. -/
def putEntry (img : Image) (pos inode recLen mode : ℕ) (name : Name) : Image :=
  let img := setFileType img pos mode
  let img := strcpy img (pos + 8) name
  let img := setNameLen img pos name.length
  let img := setRecLen img pos recLen
  setDeInode img pos inode

/-- The room that `create_link` asks for. -/
def entrySize (name : Name) (mode : ℕ) : ℕ :=
  if mode = ext2FtSymlink then name.length else roundUp (4 + 2 + 8 + name.length + 4)

/-- The room that an entry needs itself. -/
def dirSize (img : Image) (pos : ℕ) : ℕ := roundUp (4 + 2 + 1 + nameLen img pos + 1)

/-- Whether the entry could be added. -/
def createLink (t : Tables) (img : Image) (parent inode : ℕ) (name : Name) (mode : ℕ) :
    Option (Bool × Image) :=
  match findDirBlockPos t img parent with
  | none => none
  | some base =>
    match scan (recLen img) atBlockEnd
      (fun pos => dirSize img pos + entrySize name mode ≤ recLen img pos) imageSize base base with
    | none => none
    | some none => some (false, img)
    | some (some (_, pos)) =>
      let curLen := recLen img pos
      let size := dirSize img pos
      let img := setRecLen img pos size
      some (true, putEntry img (pos + recLen img pos) inode (curLen - size) mode name)

/-- Decrease the link count of an inode. The bit that is cleared when it reaches 0 is looked up
in `inum[]`. -/
def removeLink (env : Env) (t : Tables) (img : Image) (inode : ℕ) : Image :=
  if 0 < iLinksCount img inode then
    let img := setILinksCount img inode (iLinksCount img inode - 1)
    if iLinksCount img inode = 0 then
      match (List.range (sInodesCount img)).find? fun i =>
        bit img (bgInodeBitmap img) i && t.inumAt env i == (inode + 0xFFFFFFFF) % 2 ^ 32 with
      | some i =>
        let img := clearBit img (bgInodeBitmap img) i
        setBgFreeInodesCount img (bgFreeInodesCount img + 1)
      | none => setIDtime img inode env.now
    else setIDtime img inode env.now
  else setIDtime img inode env.now

/-- `inode - 1` is unsigned: for inode 0 it is a place far outside the image. -/
def allocate (img : Image) (inode parent mode : ℕ) (path : Name) : Option Image :=
  if inode = 0 then none
  else
    let img := setIMode img inode mode
    if modeType mode = ext2SIfreg then
      some (setILinksCount img inode (iLinksCount img inode + 1))
    else if modeType mode = ext2SIflnk then
      let (block, img) := findFreeBlock img
      let img := strcpy img (block * ext2BlockSize) path
      let img := setIBlock img inode 0 block
      some (setISize img inode path.length)
    else if modeType mode = ext2SIfdir then
      let img := setILinksCount img inode 2
      let img := setIBlocks img inode 2
      let img := setISize img inode ext2BlockSize
      let (block, img) := findFreeBlock img
      let img := setIBlock img inode 0 block
      let pos := block * ext2BlockSize
      let img := setRecLen img pos 12
      let img := strcpy img (pos + 8) [dot]
      let img := setNameLen img pos 1
      let img := setFileType img pos ext2FtDir
      let img := setDeInode img pos inode
      let pos := pos + recLen img pos
      let img := setRecLen img pos 1012
      let img := strcpy img (pos + 8) [dot, dot]
      let img := setNameLen img pos 2
      let img := setFileType img pos ext2FtDir
      let img := setDeInode img pos parent
      if parent = 0 then none
      else some (setILinksCount img parent (iLinksCount img parent + 1))
    else some img

end Cscc69.Ext2
