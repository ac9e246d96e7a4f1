import Cscc69.Lib.Bytes
import Cscc69.Lib.Records

/-!
# The image

The disk is a file of 128 KiB, mapped into memory. This file names the places in it that the
tools read and write: the superblock, the group descriptor, the two bitmaps, the inode table and
the entries of directory blocks. Addresses count from the start of the image. `disk` is page
aligned, so that an address is a multiple of the block size exactly if the pointer is.

A C string is the list of its bytes, without the NUL that ends it.
-/

namespace Cscc69.Ext2

open Bytes Records

abbrev Image := Mem
abbrev Name := List UInt8

def ext2BlockSize : ℕ := 1024
def imageSize : ℕ := 128 * 1024

/-- The block is one of the 128 of the image. -/
def InImage (b : ℕ) : Prop := (b + 1) * ext2BlockSize ≤ imageSize

instance (b : ℕ) : Decidable (InImage b) := by
  unfold InImage; infer_instance

theorem InImage.lt {b : ℕ} (h : InImage b) : b < 128 := by
  have hsize : (b + 1) * 1024 ≤ 128 * 1024 := h
  omega

def ext2RootIno : ℕ := 2
def ext2SIflnk : ℕ := 0xA000
def ext2SIfreg : ℕ := 0x8000
def ext2SIfdir : ℕ := 0x4000
def ext2FtRegFile : ℕ := 1
def ext2FtDir : ℕ := 2
def ext2FtSymlink : ℕ := 7

/-! ## Superblock and group descriptor -/

def sInodesCount (img : Image) : ℕ := load img 1024 4
def sBlocksCount (img : Image) : ℕ := load img 1028 4
def sFreeBlocksCount (img : Image) : ℕ := load img 1036 4
def sFreeInodesCount (img : Image) : ℕ := load img 1040 4

def bgBlockBitmap (img : Image) : ℕ := load img 2048 4
def bgInodeBitmap (img : Image) : ℕ := load img 2052 4
def bgInodeTable (img : Image) : ℕ := load img 2056 4
def bgFreeBlocksCount (img : Image) : ℕ := load img 2060 2
def bgFreeInodesCount (img : Image) : ℕ := load img 2062 2
def bgUsedDirsCount (img : Image) : ℕ := load img 2064 2

def setBgFreeBlocksCount (img : Image) (v : ℕ) : Image := store img 2060 2 v
def setBgFreeInodesCount (img : Image) (v : ℕ) : Image := store img 2062 2 v

/-! ## Bitmaps -/

/-- Bit `i` of the bitmap in block `block`. -/
def bit (img : Image) (block i : ℕ) : Bool :=
  (img (block * ext2BlockSize + i / 8)).toNat.testBit (i % 8)

/-- `bm[i / 8] = bm[i / 8] | (1 << index)` -/
def setBit (img : Image) (block i : ℕ) : Image :=
  let a := block * ext2BlockSize + i / 8
  Function.update img a (img a ||| (1 <<< UInt8.ofNat (i % 8)))

/-- `bm[i / 8] = bm[i / 8] & ~(1 << index)` -/
def clearBit (img : Image) (block i : ℕ) : Image :=
  let a := block * ext2BlockSize + i / 8
  Function.update img a (img a &&& ~~~(1 <<< UInt8.ofNat (i % 8)))

/-! ## Inodes -/

/-- Inode number `ino`; the table begins with number 1. -/
@[irreducible] def inodeAddr (img : Image) (ino : ℕ) : ℕ :=
  bgInodeTable img * ext2BlockSize + 128 * ino - 128

theorem inodeAddr_def (img : Image) (ino : ℕ) :
    inodeAddr img ino = bgInodeTable img * ext2BlockSize + 128 * ino - 128 := by
  unfold inodeAddr; rfl

def iMode (img : Image) (ino : ℕ) : ℕ := load img (inodeAddr img ino) 2
def iSize (img : Image) (ino : ℕ) : ℕ := load img (inodeAddr img ino + 4) 4
def iLinksCount (img : Image) (ino : ℕ) : ℕ := load img (inodeAddr img ino + 26) 2
def iDtime (img : Image) (ino : ℕ) : ℕ := load img (inodeAddr img ino + 20) 4
def iBlocks (img : Image) (ino : ℕ) : ℕ := load img (inodeAddr img ino + 28) 4
def iBlock (img : Image) (ino k : ℕ) : ℕ := load img (inodeAddr img ino + 40 + 4 * k) 4

def setIMode (img : Image) (ino v : ℕ) : Image := store img (inodeAddr img ino) 2 v
def setISize (img : Image) (ino v : ℕ) : Image := store img (inodeAddr img ino + 4) 4 v
def setIDtime (img : Image) (ino v : ℕ) : Image := store img (inodeAddr img ino + 20) 4 v
def setILinksCount (img : Image) (ino v : ℕ) : Image := store img (inodeAddr img ino + 26) 2 v
def setIBlocks (img : Image) (ino v : ℕ) : Image := store img (inodeAddr img ino + 28) 4 v
def setIBlock (img : Image) (ino k v : ℕ) : Image :=
  store img (inodeAddr img ino + 40 + 4 * k) 4 v

/-- The type bits of a mode, which `S_ISDIR`, `S_ISREG` and `S_ISLNK` compare. -/
def modeType (mode : ℕ) : ℕ := mode &&& 0xF000

/-! ## Directory entries -/

def deInode (img : Image) (pos : ℕ) : ℕ := load img pos 4
def recLen (img : Image) (pos : ℕ) : ℕ := load img (pos + 4) 2
def nameLen (img : Image) (pos : ℕ) : ℕ := (img (pos + 6)).toNat
def fileType (img : Image) (pos : ℕ) : ℕ := (img (pos + 7)).toNat
/-- The `name_len` bytes of the name. -/
def deName (img : Image) (pos : ℕ) : Name := Bytes.read img (pos + 8) (nameLen img pos)

def setDeInode (img : Image) (pos v : ℕ) : Image := store img pos 4 v
def setRecLen (img : Image) (pos v : ℕ) : Image := store img (pos + 4) 2 v
def setNameLen (img : Image) (pos v : ℕ) : Image := store img (pos + 6) 1 v
def setFileType (img : Image) (pos v : ℕ) : Image := store img (pos + 7) 1 v

/-! ## C strings -/

/-- The characters `.` and `/`. -/
def dot : UInt8 := 46
def slash : UInt8 := 47

/-- `strncmp(s, p, n) == 0` for the bytes `p` at `a`. Both stop at a NUL. -/
def strncmpEq (img : Image) : Name → ℕ → ℕ → Bool
  | _, _, 0 => true
  | [], a, _ + 1 => img a == 0
  | c :: s, a, n + 1 => img a == c && strncmpEq img s (a + 1) n

/-- `strcmp(p, ".") == 0` for the bytes `p` at `a`. -/
def isDotAt (img : Image) (a : ℕ) : Bool := img a == dot && img (a + 1) == 0

/-- `strcpy` of `s` to the bytes at `a`. -/
def strcpy (img : Image) (a : ℕ) (s : Name) : Image := write img a (s ++ [0])

/-- The test of the directory loops for the entry at `pos`:
`strncmp(s, dir->name, dir->name_len) == 0 && strlen(s) == dir->name_len`. -/
def namesEntry (img : Image) (s : Name) (pos : ℕ) : Bool :=
  strncmpEq img s (pos + 8) (nameLen img pos) && s.length == nameLen img pos

theorem strncmpEq_length (img : Image) (s : Name) (a : ℕ) :
    strncmpEq img s a s.length = true ↔ Bytes.read img a s.length = s := by
  induction s generalizing a with
  | nil => simp [strncmpEq, Bytes.read]
  | cons c s ih =>
    have hread : Bytes.read img a (s.length + 1) = img a :: Bytes.read img (a + 1) s.length := by
      unfold Bytes.read
      rw [List.range_succ_eq_map, List.map_cons, List.map_map]
      refine congrArg₂ _ rfl (List.map_congr_left fun i _ => ?_)
      show img (a + (i + 1)) = img (a + 1 + i)
      congr 1
      omega
    rw [List.length_cons, hread, strncmpEq, Bool.and_eq_true, beq_iff_eq, ih, List.cons.injEq]

/-- The test holds of the entries of that name. -/
@[simp] theorem namesEntry_iff {img : Image} {s : Name} {pos : ℕ} :
    namesEntry img s pos = true ↔ deName img pos = s := by
  unfold namesEntry deName
  rw [Bool.and_eq_true, beq_iff_eq]
  constructor
  · rintro ⟨hcmp, hlen⟩
    rw [← hlen] at hcmp ⊢
    exact (strncmpEq_length img s _).1 hcmp
  · intro h
    have hlen : s.length = nameLen img pos := by
      rw [← h, length_read]
    refine ⟨?_, hlen⟩
    rw [← hlen, strncmpEq_length, hlen]
    exact h

end Cscc69.Ext2
