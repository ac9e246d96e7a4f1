import Cscc69.Ext2.Bitmaps
import Mathlib.Order.Interval.Finset.Nat

/-!
# Loading an image, and the walks over its directories

`init` and the entry loops take what they find in the image: counts, block numbers and lengths, and
go on until they meet a zero or the end of a block. Here their steps are checked one by one.
`loadImage` is `init` again, on an image of 128 KiB outside of which there is nothing to read; it
has no result as soon as it reads or writes outside of the image, of `inum[32]`, of `dirs[128]` or
of the 15 pointers of an inode. A walk over a block looks at the entries of the list that `Visits`
gives it, if it ends.

Products with the block size are unsigned and have 32 bits.

Main result: `safe_iff_walkable`, which says for which images all of this goes well.
-/

namespace Cscc69.Ext2

open Bytes Records

variable {img : Image} {i k n b index : ℕ} {inum dirs is ps : List ℕ} {t : Tables}

/-! ## `init`, step by step -/

/-- `n` bytes of the image, if they are in it. -/
def load? (img : Image) (a n : ℕ) : Option ℕ :=
  if a + n ≤ imageSize then some (load img a n) else none

/-- `block * EXT2_BLOCK_SIZE` -/
def blockAddr (block : ℕ) : ℕ := block * ext2BlockSize % 2 ^ 32

/-- The loop over the inode bitmap from bit `i` on, with `n` bits left to look at. -/
def scanInodes (img : Image) : ℕ → ℕ → ℕ → List ℕ → Option (List ℕ)
  | 0, _, _, inum => some inum
  | n + 1, i, index, inum =>
    match load? img (blockAddr (bgInodeBitmap img) + i / 8) 1 with
    | none => none
    | some c =>
      let next := if index + 1 = 8 then 0 else index + 1
      if (BitVec.ofNat 8 c).signExtend 32 &&& (1 <<< index) ≠ 0 ∧ 10 < i then
        if inum.length < 32 then scanInodes img n (i + 1) next (inum ++ [i]) else none
      else scanInodes img n (i + 1) next inum

/-- The loop over the block pointers of an inode from pointer `k` on, with `n` of them left. -/
def scanPointers (img : Image) (isDir : Bool) (arr : ℕ) : ℕ → ℕ → List ℕ → Option (List ℕ)
  | 0, _, _ => none
  | n + 1, k, dirs =>
    match load? img (arr + 4 * k) 4 with
    | none => none
    | some w =>
      if w = 0 then some dirs
      else if isDir then
        if dirs.length < 128 then scanPointers img isDir arr n (k + 1) (dirs ++ [w]) else none
      else scanPointers img isDir arr n (k + 1) dirs

/-- Where the inode with index `i` is. -/
def currAddr (img : Image) (i : ℕ) : ℕ := blockAddr (bgInodeTable img) + 128 * i

/-- The loop over the indices in `inum`. -/
def scanUsed (img : Image) : List ℕ → List ℕ → Option (List ℕ)
  | [], dirs => some dirs
  | i :: is, dirs =>
    match load? img (currAddr img i) 2 with
    | none => none
    | some mode =>
      match scanPointers img (modeType mode == ext2SIfdir) (currAddr img i + 40) 15 0 dirs with
      | none => none
      | some dirs => scanUsed img is dirs

/-- `init` on an image that has been mapped. -/
def loadImage (img : Image) : Option Tables :=
  match scanInodes img (sInodesCount img) 0 0 [1] with
  | none => none
  | some inum => (scanUsed img inum []).map fun dirs => ⟨dirs, inum⟩

/-! ## What it finds -/

/-- Bit `i` of the inode bitmap. -/
def inodeBit (img : Image) (i : ℕ) : Bool :=
  (img (blockAddr (bgInodeBitmap img) + i / 8)).toNat.testBit (i % 8)

/-- The indices that go into `inum`. -/
def listed (img : Image) : List ℕ :=
  1 :: (List.range (sInodesCount img)).filter fun i => inodeBit img i && 10 < i

def pointer (img : Image) (i k : ℕ) : ℕ := load img (currAddr img i + 40 + 4 * k) 4

def isDirIndex (img : Image) (i : ℕ) : Bool :=
  modeType (load img (currAddr img i) 2) == ext2SIfdir

/-- The pointers of a directory up to the first that is 0. -/
def pointers (img : Image) (i : ℕ) : List ℕ :=
  if isDirIndex img i then ((List.range 15).map (pointer img i)).takeWhile (· ≠ 0) else []

/-- The image lets `init` do its work. -/
structure Loads (img : Image) : Prop where
  /-- The bits that are looked at are in the image. -/
  bitmap : ∀ i < sInodesCount img, blockAddr (bgInodeBitmap img) + i / 8 < imageSize
  /-- At most 31 of them, from bit 11 on, are set. -/
  inum : (listed img).length ≤ 32
  /-- The inodes are in the image. -/
  inodes : ∀ i ∈ listed img, currAddr img i < imageSize
  /-- Each of them has a pointer that is 0. -/
  ends : ∀ i ∈ listed img, ∃ k < 15, pointer img i k = 0
  /-- The directories among them have at most 128 blocks. -/
  dirs : ((listed img).flatMap (pointers img)).length ≤ 128

theorem blockAddr_dvd (block : ℕ) : 1024 ∣ blockAddr block := by
  have hsize : ext2BlockSize = 1024 := rfl
  rw [blockAddr, hsize]
  omega

/-- An inode that begins in the image is in it. -/
theorem currAddr_add_le (h : currAddr img i < imageSize) : currAddr img i + 128 ≤ imageSize := by
  have hdvd := blockAddr_dvd (bgInodeTable img)
  have hsize : imageSize = 128 * 1024 := rfl
  rw [currAddr] at h ⊢
  omega

/-! ## Arrays of a fixed length -/

theorem eq_iff_fits {cap : ℕ} {xs ys : List ℕ} {P : Prop} (hP : P) (hlen : xs.length ≤ cap) :
    xs = ys ↔ P ∧ ys = xs ∧ ys.length ≤ cap := by
  constructor
  · rintro rfl
    exact ⟨hP, rfl, hlen⟩
  · exact fun h => h.2.1.symm

/-- An element is put behind the others if there is room, and the loop goes on. -/
theorem push_iff {cap x : ℕ} {xs ys zs : List ℕ} {P : Prop} {rest : Option (List ℕ)}
    (hrest : (xs ++ [x]).length ≤ cap →
      (rest = some ys ↔ P ∧ ys = xs ++ [x] ++ zs ∧ ys.length ≤ cap)) :
    (if xs.length < cap then rest else none) = some ys ↔
      P ∧ ys = xs ++ x :: zs ∧ ys.length ≤ cap := by
  split
  · rename_i hroom
    rw [hrest (by simp; omega), List.append_assoc, List.singleton_append]
  · rename_i hfull
    simp only [reduceCtorEq, false_iff]
    rintro ⟨-, rfl, hshort⟩
    simp at hshort
    omega

/-! ## The loop over the bitmap -/

theorem load?_eq_some {a v : ℕ} :
    load? img a n = some v ↔ a + n ≤ imageSize ∧ load img a n = v := by
  unfold load?
  split
  · rename_i h
    simp [h]
  · rename_i h
    simp [h]

theorem load?_eq_none {a : ℕ} : load? img a n = none ↔ ¬ a + n ≤ imageSize := by
  unfold load?
  split <;> simp_all

/-- The test of the loop. -/
theorem inodeBit_iff (img : Image) (i : ℕ) :
    (BitVec.ofNat 8 (load img (blockAddr (bgInodeBitmap img) + i / 8) 1)).signExtend 32 &&&
      (1 <<< (i % 8)) ≠ 0 ↔ inodeBit img i = true := by
  have hbyte := signExtend_and (img (blockAddr (bgInodeBitmap img) + i / 8)) (i % 8)
    (Nat.mod_lt _ (by decide))
  have hload : BitVec.ofNat 8 (load img (blockAddr (bgInodeBitmap img) + i / 8) 1) =
      (img (blockAddr (bgInodeBitmap img) + i / 8)).toBitVec := by
    rw [load_one]
    exact BitVec.ofNat_toNat _ _
  rw [hload, Ne, hbyte, Bool.not_eq_false]
  rfl

theorem scanInodes_eq_some (hlen : inum.length ≤ 32) : scanInodes img n i (i % 8) inum = some is ↔
    (∀ j ∈ List.range' i n, blockAddr (bgInodeBitmap img) + j / 8 < imageSize) ∧
      is = inum ++ (List.range' i n).filter (fun j => inodeBit img j && 10 < j) ∧
      is.length ≤ 32 := by
  induction n generalizing i inum with
  | zero =>
    simp only [scanInodes, Option.some_inj, List.range'_zero, List.filter_nil, List.append_nil]
    exact eq_iff_fits (fun j hj => absurd hj List.not_mem_nil) hlen
  | succ n ih =>
    rw [scanInodes, List.range'_succ, List.forall_mem_cons]
    cases hload : load? img (blockAddr (bgInodeBitmap img) + i / 8) 1 with
    | none =>
      have hout := load?_eq_none.1 hload
      simp only [reduceCtorEq, false_iff]
      rintro ⟨⟨hin, -⟩, -⟩
      exact hout hin
    | some c =>
      obtain ⟨hin, rfl⟩ := load?_eq_some.1 hload
      have hin : blockAddr (bgInodeBitmap img) + i / 8 < imageSize := hin
      simp only [inodeBit_iff, next_index, hin, true_and]
      by_cases hbit : inodeBit img i = true ∧ 10 < i
      · have hpos : (inodeBit img i && decide (10 < i)) = true := by simpa using hbit
        rw [if_pos hbit,
          List.filter_cons_of_pos (p := fun j => inodeBit img j && decide (10 < j)) hpos]
        exact push_iff fun hroom => ih hroom
      · have hneg : ¬ (inodeBit img i && decide (10 < i)) = true := by simpa using hbit
        rw [if_neg hbit,
          List.filter_cons_of_neg (p := fun j => inodeBit img j && decide (10 < j)) hneg]
        exact ih hlen

/-! ## The loops over the pointers -/

/-- Pointers `k` to `k + n - 1` at `arr`, up to the first that is 0. -/
def words (img : Image) (arr k n : ℕ) : List ℕ :=
  ((List.range' k n).map fun j => load img (arr + 4 * j) 4).takeWhile (· ≠ 0)

theorem scanPointers_eq_some {isDir : Bool} {arr : ℕ} {bs : List ℕ}
    (harr : ∀ j < k + n, arr + 4 * j + 4 ≤ imageSize) (hlen : dirs.length ≤ 128) :
    scanPointers img isDir arr n k dirs = some bs ↔
      (∃ j < n, load img (arr + 4 * (k + j)) 4 = 0) ∧
        bs = dirs ++ (if isDir then words img arr k n else []) ∧ bs.length ≤ 128 := by
  induction n generalizing k dirs with
  | zero => simp [scanPointers]
  | succ n ih =>
    have hload : load? img (arr + 4 * k) 4 = some (load img (arr + 4 * k) 4) :=
      load?_eq_some.2 ⟨harr k (by omega), rfl⟩
    have harr' : ∀ j < k + 1 + n, arr + 4 * j + 4 ≤ imageSize := fun j hj => harr j (by omega)
    rw [scanPointers, hload]
    simp only
    by_cases hzero : load img (arr + 4 * k) 4 = 0
    · have hwords : words img arr k (n + 1) = [] := by simp [words, List.range'_succ, hzero]
      rw [if_pos hzero, hwords, ite_self, List.append_nil, Option.some_inj]
      exact eq_iff_fits ⟨0, Nat.succ_pos n, hzero⟩ hlen
    · have hwords : words img arr k (n + 1) =
          load img (arr + 4 * k) 4 :: words img arr (k + 1) n := by
        simp [words, List.range'_succ, hzero]
      have hends : (∃ j < n + 1, load img (arr + 4 * (k + j)) 4 = 0) ↔
          ∃ j < n, load img (arr + 4 * (k + 1 + j)) 4 = 0 := by
        constructor
        · rintro ⟨j, hj, heq⟩
          obtain _ | j := j
          · exact absurd heq hzero
          · exact ⟨j, by omega, by rw [← heq]; congr 2; omega⟩
        · rintro ⟨j, hj, heq⟩
          exact ⟨j + 1, by omega, by rw [← heq]; congr 2; omega⟩
      rw [if_neg hzero, hends]
      cases isDir with
      | false =>
        simp only [Bool.false_eq_true, if_false]
        rw [ih harr' hlen]
        simp
      | true =>
        simp only [if_true]
        rw [hwords]
        exact push_iff fun hroom => ih harr' hroom

theorem words_pointers (img : Image) (i : ℕ) :
    (if isDirIndex img i then words img (currAddr img i + 40) 0 15 else []) = pointers img i := by
  rw [pointers, words, ← List.range_eq_range']
  rfl

theorem scanUsed_eq_some {bs : List ℕ} (hlen : dirs.length ≤ 128) :
    scanUsed img is dirs = some bs ↔
      (∀ i ∈ is, currAddr img i < imageSize ∧ ∃ k < 15, pointer img i k = 0) ∧
        bs = dirs ++ is.flatMap (pointers img) ∧ bs.length ≤ 128 := by
  induction is generalizing dirs with
  | nil =>
    simp only [scanUsed, Option.some_inj, List.flatMap_nil, List.append_nil]
    exact eq_iff_fits (fun i hi => absurd hi List.not_mem_nil) hlen
  | cons i is ih =>
    rw [scanUsed, List.forall_mem_cons, List.flatMap_cons]
    cases hload : load? img (currAddr img i) 2 with
    | none =>
      have hout := load?_eq_none.1 hload
      simp only [reduceCtorEq, false_iff]
      rintro ⟨⟨⟨hin, -⟩, -⟩, -⟩
      have hle := currAddr_add_le hin
      omega
    | some mode =>
      obtain ⟨hin, rfl⟩ := load?_eq_some.1 hload
      have hin : currAddr img i < imageSize := by omega
      have hle := currAddr_add_le hin
      have harr : ∀ j < 0 + 15, currAddr img i + 40 + 4 * j + 4 ≤ imageSize := by omega
      have hscan : ∀ {bs}, scanPointers img (isDirIndex img i) (currAddr img i + 40) 15 0 dirs =
          some bs ↔ (∃ k < 15, pointer img i k = 0) ∧ bs = dirs ++ pointers img i ∧
            bs.length ≤ 128 := by
        intro bs
        rw [scanPointers_eq_some harr hlen, words_pointers]
        simp only [Nat.zero_add]
        rfl
      show (match scanPointers img (isDirIndex img i) (currAddr img i + 40) 15 0 dirs with
        | none => none
        | some dirs => scanUsed img is dirs) = some bs ↔ _
      cases hptr : scanPointers img (isDirIndex img i) (currAddr img i + 40) 15 0 dirs with
      | none =>
        simp only [reduceCtorEq, false_iff]
        rintro ⟨⟨⟨-, hends⟩, -⟩, rfl, hshort⟩
        have hshort' : (dirs ++ pointers img i).length ≤ 128 := by
          simp only [List.length_append] at hshort ⊢
          omega
        rw [hscan.2 ⟨hends, rfl, hshort'⟩] at hptr
        cases hptr
      | some dirs' =>
        obtain ⟨hends, rfl, hshort⟩ := hscan.1 hptr
        simp only
        rw [ih hshort, List.append_assoc]
        simp only [hin, hends, true_and]

/-- **What loading an image finds**, and when. -/
theorem loadImage_eq_some : loadImage img = some t ↔
    Loads img ∧ t = ⟨(listed img).flatMap (pointers img), listed img⟩ := by
  have hone : ([1] : List ℕ).length ≤ 32 := by decide
  have hscan : ∀ {is}, scanInodes img (sInodesCount img) 0 0 [1] = some is ↔
      (∀ j < sInodesCount img, blockAddr (bgInodeBitmap img) + j / 8 < imageSize) ∧
        is = listed img ∧ is.length ≤ 32 := by
    intro is
    have hspec : scanInodes img (sInodesCount img) 0 (0 % 8) [1] = some is ↔ _ :=
      scanInodes_eq_some hone
    rw [← List.range_eq_range'] at hspec
    simp only [List.mem_range, Nat.zero_mod, List.singleton_append] at hspec
    exact hspec
  unfold loadImage
  constructor
  · intro h
    cases hinum : scanInodes img (sInodesCount img) 0 0 [1] with
    | none => rw [hinum] at h; cases h
    | some is =>
      rw [hinum] at h
      obtain ⟨hbitmap, rfl, hlen⟩ := hscan.1 hinum
      obtain ⟨bs, hbs, rfl⟩ := Option.map_eq_some_iff.1 h
      obtain ⟨hused, rfl, hdirs⟩ := (scanUsed_eq_some (by decide)).1 hbs
      rw [List.nil_append] at hdirs ⊢
      exact ⟨⟨hbitmap, hlen, fun i hi => (hused i hi).1, fun i hi => (hused i hi).2, hdirs⟩, rfl⟩
  · rintro ⟨h, rfl⟩
    have hused : scanUsed img (listed img) [] = some ((listed img).flatMap (pointers img)) :=
      (scanUsed_eq_some (by decide)).2 ⟨fun i hi => ⟨h.inodes i hi, h.ends i hi⟩, rfl, h.dirs⟩
    rw [hscan.2 ⟨h.bitmap, rfl, h.inum⟩]
    show (scanUsed img (listed img) []).map _ = _
    rw [hused]
    rfl

/-! ## Walks -/

/-- The loop over the entries of a block, up to one that is `found`, ends; each entry that it looks
at begins in the block, and its lengths are in the image. -/
def WalkEnds (img : Image) (b : ℕ) (found : ℕ → Bool) : Prop :=
  ∃ ps, Visits (recLen img) atBlockEnd found (b * ext2BlockSize) ps ∧
    ∀ p ∈ ps, p ∈ blockBytes b ∧ p + 7 ≤ imageSize

/-- The loops of `find_dir_entry` and `find_pre_pos`, and that of `create_link`. -/
structure WalksEnd (img : Image) (b : ℕ) : Prop where
  search : ∀ filename : Name, WalkEnds img b (namesEntry img filename)
  link : ∀ (name : Name) (mode : ℕ),
    WalkEnds img b fun pos => dirSize img pos + entrySize name mode ≤ recLen img pos

/-- The first entry has length 0, or the entries from the first on are laid end to end, begin in the
block, and end at the end of a block. -/
def Walkable (img : Image) (b : ℕ) : Prop :=
  recLen img (b * ext2BlockSize) = 0 ∨
    ∃ e p ps, Tiles (recLen img) (b * ext2BlockSize) e (p :: ps) ∧ atBlockEnd e = true ∧
      ∀ q ∈ p :: ps, q ∈ blockBytes b ∧ q + 7 ≤ imageSize

theorem atBlockEnd_iff : atBlockEnd n = true ↔ n % 1024 = 0 := by
  rw [atBlockEnd, beq_iff_eq]
  rfl

theorem atBlockEnd_block (b : ℕ) : atBlockEnd (b * ext2BlockSize) = true :=
  beq_iff_eq.2 (Nat.mul_mod_left b ext2BlockSize)

/-- Every loop ends on a block that can be walked, and looks at no entry twice. -/
theorem Walkable.visits (h : Walkable img b) (hb : b < 128) (found : ℕ → Bool) :
    ∃ ps, Visits (recLen img) atBlockEnd found (b * ext2BlockSize) ps ∧ ps.Nodup ∧
      ∀ p ∈ ps, p ∈ blockBytes b ∧ p + 7 ≤ imageSize := by
  have hsize : ext2BlockSize = 1024 := rfl
  rcases h with hzero | ⟨e, p, ps, htiles, he, hin⟩
  · have hmem : b * ext2BlockSize ∈ blockBytes b ∧ b * ext2BlockSize + 7 ≤ imageSize := by
      have himage : imageSize = 131072 := rfl
      rw [blockBytes, Set.mem_Ico, hsize]
      omega
    refine ⟨[b * ext2BlockSize], ?_, List.nodup_singleton _, List.forall_mem_singleton.2 hmem⟩
    cases hfound : found (b * ext2BlockSize) with
    | true => exact .found hfound
    | false => exact .stop hfound (by rw [hzero, Nat.add_zero]; exact atBlockEnd_block b)
  · obtain ⟨rfl, -, -⟩ := Tiles.cons_iff.1 htiles
    have hgo : ∀ q ∈ ps, atBlockEnd q = false := by
      intro q hq
      have hlt := List.rel_of_pairwise_cons htiles.sorted hq
      have hmem := (hin q (List.mem_cons_of_mem _ hq)).1
      simp only [blockBytes, Set.mem_Ico, hsize] at hmem hlt
      rw [← Bool.not_eq_true, atBlockEnd_iff]
      omega
    obtain ⟨qs, hqs, hsub⟩ : ∃ qs, Visits (recLen img) atBlockEnd found (b * ext2BlockSize) qs ∧
        qs <+: b * ext2BlockSize :: ps := htiles.visits (List.cons_ne_nil _ _) he hgo
    exact ⟨qs, hqs, htiles.nodup.sublist hsub.sublist, fun q hq => hin q (hsub.subset hq)⟩

theorem Walkable.walkEnds (h : Walkable img b) (hb : b < 128) (found : ℕ → Bool) :
    WalkEnds img b found := by
  obtain ⟨ps, hvisits, -, hin⟩ := h.visits hb found
  exact ⟨ps, hvisits, hin⟩

/-- A loop that finds nothing goes through the entries to the end of a block. -/
theorem WalkEnds.walkable {found : ℕ → Bool} (h : WalkEnds img b found)
    (hno : ∀ q, found q = false) : Walkable img b := by
  obtain ⟨ps, hvisits, hin⟩ := h
  cases hvisits with
  | found hp => rw [hno] at hp; cases hp
  | stop _ hs =>
    by_cases hzero : recLen img (b * ext2BlockSize) = 0
    · exact .inl hzero
    · exact .inr ⟨_, _, [], .cons (Nat.pos_of_ne_zero hzero) (.nil _), hs, hin⟩
  | next _ hs hrest =>
    have hpos : recLen img (b * ext2BlockSize) ≠ 0 := by
      intro hzero
      rw [hzero, Nat.add_zero, atBlockEnd_block] at hs
      cases hs
    obtain ⟨e, htiles, he⟩ := hrest.tiles hno hs
    exact .inr ⟨e, _, _, .cons (Nat.pos_of_ne_zero hpos) htiles, he, hin⟩

theorem walksEnd_iff (hb : b < 128) : WalksEnd img b ↔ Walkable img b := by
  constructor
  · intro h
    -- a name longer than any entry's
    refine (h.search (List.replicate 256 97)).walkable fun pos => ?_
    rw [← Bool.not_eq_true, namesEntry_iff]
    intro heq
    have hlen := congrArg List.length heq
    rw [deName, length_read, List.length_replicate] at hlen
    have hlt : nameLen img pos < 256 := (img (pos + 6)).toNat_lt
    omega
  · intro h
    exact ⟨fun filename => h.walkEnds hb _, fun name mode => h.walkEnds hb _⟩

/-! ## Safe images -/

/-- `init` stays within the image and its arrays, and the walks over the blocks in `dirs` that lie
in the image end and stay in their blocks. -/
structure Safe (img : Image) : Prop where
  loads : ∃ t, loadImage img = some t
  walks : ∀ t, loadImage img = some t → ∀ b ∈ t.dirs, InImage b → WalksEnd img b

/-- **The images on which loading and walking are safe.** -/
theorem safe_iff_walkable (img : Image) : Safe img ↔
    Loads img ∧ ∀ i ∈ listed img, ∀ b ∈ pointers img i, InImage b → Walkable img b := by
  constructor
  · rintro ⟨⟨t, ht⟩, hwalks⟩
    obtain ⟨hloads, rfl⟩ := loadImage_eq_some.1 ht
    refine ⟨hloads, fun i hi b hb hin => (walksEnd_iff hin.lt).1 ?_⟩
    exact hwalks _ ht b (List.mem_flatMap.2 ⟨i, hi, hb⟩) hin
  · rintro ⟨hloads, hwalks⟩
    refine ⟨⟨_, loadImage_eq_some.2 ⟨hloads, rfl⟩⟩, fun t ht b hb hin => ?_⟩
    obtain ⟨-, rfl⟩ := loadImage_eq_some.1 ht
    obtain ⟨i, hi, hb⟩ := List.mem_flatMap.1 hb
    exact (walksEnd_iff hin.lt).2 (hwalks i hi b hb hin)

/-! ## The functions of helper.c on safe images -/

/-- A loop over a block looks at 1024 entries at most. -/
theorem Walkable.scanBlock_isSome (h : Walkable img b) (hb : b < 128) (found : ℕ → Bool) :
    (scanBlock img found b).isSome = true := by
  obtain ⟨ps, hvisits, hnodup, hin⟩ := h.visits hb found
  have hsub : ps.toFinset ⊆ Finset.Ico (b * ext2BlockSize) (b * ext2BlockSize + ext2BlockSize) := by
    intro p hp
    exact Finset.mem_Ico.2 (hin p (List.mem_toFinset.1 hp)).1
  have hcard := Finset.card_le_card hsub
  rw [List.toFinset_card_of_nodup hnodup, Nat.card_Ico, Nat.add_sub_cancel_left] at hcard
  have hlarge : ext2BlockSize ≤ imageSize := by decide
  exact hvisits.scan_isSome (hcard.trans hlarge) _

theorem searchDirs_isSome {blocks : List ℕ} {entered found : ℕ → Bool}
    (h : ∀ b ∈ blocks, (scanBlock img found b).isSome = true) :
    (searchDirs img entered found blocks).isSome = true := by
  induction blocks with
  | nil => rfl
  | cons b blocks ih =>
    obtain ⟨hb, hblocks⟩ := List.forall_mem_cons.1 h
    rw [searchDirs]
    split
    · cases hscan : scanBlock img found b with
      | none => rw [hscan] at hb; cases hb
      | some r =>
        cases r with
        | none => exact ih hblocks
        | some r => rfl
    · exact ih hblocks

/-- **The searches of a safe image have a result** if all blocks in `dirs` lie in it. -/
theorem Safe.searches (h : Safe img) (ht : loadImage img = some t)
    (hin : ∀ b ∈ t.dirs, InImage b) (inode : ℕ) (filename : Name) :
    (findDirEntry t img inode filename).isSome = true ∧
      (findPrePos t img inode filename).isSome = true := by
  have hsearch : (searchDirs img (fun _ => true) (namesEntry img filename) t.dirs).isSome = true :=
    searchDirs_isSome fun b hb =>
      have hlt := (hin b hb).lt
      ((walksEnd_iff hlt).1 (h.walks t ht b hb (hin b hb))).scanBlock_isSome hlt _
  unfold findDirEntry findPrePos
  simp only [Option.isSome_map]
  exact ⟨hsearch, hsearch⟩

/-- `/f` as a symbolic link to a path of 59 bytes, which takes the place of the pointers. -/
def fastLink : Image :=
  write (setIMode exImage 15 0xA1FF) (inodeAddr exImage 15 + 40) (List.replicate 59 97)

/-- The entry `..` of the root without a length. -/
def zeroLength : Image := setRecLen exImage (9 * ext2BlockSize + 12) 0

/-- The pointers of the one have no end, and the walk over the root of the other neither. -/
theorem images_not_safe : ¬ Safe fastLink ∧ ¬ Safe zeroLength := by
  constructor
  · intro h
    have hnone : loadImage fastLink = none := by decide +kernel
    obtain ⟨t, ht⟩ := h.loads
    rw [hnone] at ht
    cases ht
  · intro h
    have hload : loadImage zeroLength = some exTables := by decide +kernel
    have hends := h.walks _ hload 9 (by decide) (by unfold InImage; decide)
    have hwalk := (walksEnd_iff (by decide)).1 hends
    have hfirst : recLen zeroLength (9 * ext2BlockSize) = 12 := by decide +kernel
    have hsecond : recLen zeroLength (9 * ext2BlockSize + 12) = 0 := by decide +kernel
    rcases hwalk with hzero | ⟨e, p, ps, htiles, he, -⟩
    · omega
    · obtain ⟨rfl, -, hrest⟩ := Tiles.cons_iff.1 htiles
      rw [hfirst] at hrest
      cases hrest with
      | nil => exact absurd he (by decide)
      | cons hpos _ => omega

end Cscc69.Ext2
