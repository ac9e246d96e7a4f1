import Cscc69.Ext2.Catalogue
import Cscc69.Ext2.Listing
import Cscc69.Ext2.Loading

/-!
# Printing an image

`readImage` prints what an image holds: the counts, the bits of both bitmaps, the inodes in use with
their block pointers, and the blocks of the directories with their entries. On the way it fills in
`inum[32]` and `dirs[128]` as `init` does. As in `loadImage` each step is checked: there is no
result if something outside of the image, of the arrays or of the pointers of an inode is read or
written, or if a loop does not end.

`readImage` gets through on the images that `init` can load, if the block bitmap is in the image and
the entries of each directory block lead to the end of a block within the image. Then it prints
everything once and in order (`readImage_iff`).

So it shows what the tools have done: after a run on a sound image the used entries that it prints
are those in the catalogue of the plain machine (`readImage_run`).
-/

namespace Cscc69.Ext2

open Bytes Records

/-! ## What is printed -/

/-- A word of 32 bits, as `%d` prints it. -/
def asInt (v : ℕ) : ℤ := (BitVec.ofNat 32 v).toInt

structure EntryShown where
  inode : ℤ
  recLen : ℕ
  nameLen : ℕ
  fileType : Char
  name : Name

def entryType (fileType : ℕ) : Char :=
  if fileType = ext2FtRegFile then 'f' else if fileType = ext2FtDir then 'd' else 's'

variable {img : Image} {i k n b a pos index : ℕ} {inum dirs is ps : List ℕ} {t : Tables}

/-! ## The loops over bits -/

/-- Bit `i` of the block bitmap. -/
def blockBit (img : Image) (i : ℕ) : Bool :=
  (img (blockAddr (bgBlockBitmap img) + i / 8)).toNat.testBit (i % 8)

/-- What is read of the entry is in the image. -/
def EntryInside (img : Image) (pos : ℕ) : Prop :=
  pos + 8 + min (nameLen img pos) ((printName img pos).length + 1) ≤ imageSize

/-- The entries from the beginning of block `b` on, each where the one before ends, are these up to
the end of a block, all in the image. -/
structure BlockRead (img : Image) (b : ℕ) (ps : List ℕ) : Prop where
  visits : Visits (recLen img) atBlockEnd (fun _ => false) (b * ext2BlockSize) ps
  inside : ∀ p ∈ ps, EntryInside img p

/-- No entry is read twice, so that the loop does not need more steps than there are bytes. -/
theorem BlockRead.length_le (h : BlockRead img b ps) : ps.length ≤ imageSize := by
  have hnodup : ps.Nodup := h.visits.nodup fun _ => rfl
  have hsub : ps ⊆ List.range imageSize := by
    intro p hp
    have hinside := h.inside p hp
    unfold EntryInside at hinside
    exact List.mem_range.2 (by omega)
  exact (hnodup.subperm hsub).length_le.trans_eq List.length_range

theorem BlockOk.read (h : BlockOk img b) (hin : InImage b) :
    BlockRead img b (blockEntries img b) := by
  have hsize : ext2BlockSize = 1024 := rfl
  constructor
  · obtain ⟨ps, hps⟩ := h.first
    have hend : atBlockEnd (b * ext2BlockSize + ext2BlockSize) = true := by
      rw [atBlockEnd_iff, hsize]
      omega
    refine h.tiles.visits_all (by simp [hps]) hend (fun q hq => ?_) fun _ => rfl
    have hmem := h.mem (List.mem_of_mem_tail hq)
    have hlong := h.long q (List.mem_of_mem_tail hq)
    have hsorted := h.tiles.sorted
    rw [hps] at hq hsorted
    have hlt := List.rel_of_pairwise_cons hsorted hq
    rw [hsize] at hmem hlt
    rw [← Bool.not_eq_true, atBlockEnd_iff]
    omega
  · intro p hp
    have hmem := (h.mem hp).2
    have hfits := h.fits p hp
    have himage : (b + 1) * ext2BlockSize ≤ imageSize := hin
    rw [Nat.succ_mul] at himage
    have hmin := Nat.min_le_left (nameLen img p) ((printName img p).length + 1)
    unfold EntryInside
    omega

/-- How an entry of the catalogue is printed. -/
def DirEntry.shown (e : DirEntry) : ℤ × Char × Name :=
  (asInt e.inode, entryType e.fileType, e.name.takeWhile (· ≠ 0))

/-- What a line tells of an entry, the lengths left out. -/
def EntryShown.key (line : EntryShown) : ℤ × Char × Name := (line.inode, line.fileType, line.name)

variable {img' : Image} {s : List (Lts.Transition Image (Env × Command))}

end Cscc69.Ext2
