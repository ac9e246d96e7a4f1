import Cscc69.Ext2.Creation
import Cscc69.Ext2.Links

/-!
# Copied files

`copy` takes a new block for each buffer that it has read and copies the buffer there with `strcpy`,
up to the first NUL. A buffer without one is a string that goes on in what the stack holds behind
it, and runs into the next block. When the file has ended and there are pointers left, one more
block is taken, for the last, partial buffer that the loop has copied already. The count of sectors
goes up by one for a block, and begins, like the pointers that are not set, with what the slot of
the inode held before.

* `copyBlocks_eq`: the loop puts strings into the blocks that are free (`strings`, `putStrings`).
* `putStrings_spec`: what the inode and the blocks hold afterwards.
* `cp_readsBack_iff`: when the file reads back as it was.
-/

namespace Cscc69.Ext2

open Bytes Records Naming

variable {img im im' : Image} {n m b d k x q r index left total : ℕ} {name path₁ path₂ s : Name}
  {t : Tables} {env : Env} {buffer : Mem} {data : List UInt8} {ss : List Name} {xs : List ℕ}
  {ps : List (ℕ × Name)}

/-! ## Free blocks -/

/-- The blocks that the bitmap does not mark, in order. -/
def freeBlocks (img : Image) : List ℕ :=
  ((List.range (sBlocksCount img)).filter fun i => !bit img (bgBlockBitmap img) i).map (· + 1)

theorem mem_freeBlocks : x ∈ freeBlocks img ↔
    1 ≤ x ∧ x ≤ sBlocksCount img ∧ marked img x = false := by
  simp only [freeBlocks, List.mem_map, List.mem_filter, List.mem_range, Bool.not_eq_true', marked]
  constructor
  · rintro ⟨i, ⟨hlt, hbit⟩, rfl⟩
    exact ⟨by omega, hlt, hbit⟩
  · rintro ⟨h₁, h₂, hbit⟩
    exact ⟨x - 1, ⟨by omega, hbit⟩, by omega⟩

theorem freeBlocks_sorted (img : Image) : (freeBlocks img).Pairwise (· < ·) := by
  refine List.Pairwise.map _ (fun _ _ h => Nat.succ_lt_succ h) ?_
  exact List.Pairwise.filter _ List.pairwise_lt_range

theorem freeBlocks_congr (hs : SameShape im im')
    (hag : Agree im im' (bgBlockBitmap im * ext2BlockSize)
      (bgBlockBitmap im * ext2BlockSize + ext2BlockSize)) (hcount : sBlocksCount im ≤ 8192) :
    freeBlocks im' = freeBlocks im := by
  have hsize : ext2BlockSize = 1024 := rfl
  rw [freeBlocks, freeBlocks, hs.blocks, hs.blockBitmap]
  congr 1
  refine List.filter_congr fun i hi => ?_
  have hlt := List.mem_range.1 hi
  rw [bit, bit, hag _ (by omega) (by omega)]

/-- `find_free_block` takes the first of them. -/
theorem findFreeBlock_freeBlocks (hg : Geometry im) :
    (findFreeBlock im).1 = (freeBlocks im).headD 0 ∧
      freeBlocks (findFreeBlock im).2 = (freeBlocks im).tail := by
  have hm := findFreeBlock_marks hg
  have hshape : SameShape im (findFreeBlock im).2 := .of_frame hm.frame
    (Set.disjoint_union_left.2
      ⟨disjoint_blockBytes_header hg.blockBitmap, disjoint_freeCounts_header⟩)
  have hfirst : (findFreeBlock im).1 = (freeBlocks im).headD 0 := by
    rw [freeBlocks, List.headD_eq_head?_getD, List.head?_map, List.head?_filter]
    unfold findFreeBlock
    cases (List.range (sBlocksCount im)).find? fun i => !bit im (bgBlockBitmap im) i with
    | none => rfl
    | some i => rfl
  refine ⟨hfirst, ?_⟩
  have hfilter : freeBlocks (findFreeBlock im).2 =
      (freeBlocks im).filter (· ≠ (freeBlocks im).headD 0) := by
    rw [← hfirst, freeBlocks, freeBlocks, hshape.blocks, hshape.blockBitmap, List.filter_map,
      List.filter_filter]
    congr 1
    refine List.filter_congr fun i _ => ?_
    rw [hm.bit, Bool.not_or, Bool.and_comm]
    simp
  have hsorted := freeBlocks_sorted im
  rw [hfilter]
  cases hlist : freeBlocks im with
  | nil => rfl
  | cons x xs =>
    rw [hlist, List.pairwise_cons] at hsorted
    rw [List.headD_cons, List.tail_cons, List.filter_cons_of_neg (by simp), List.filter_eq_self]
    intro y hy
    have hlt := hsorted.1 y hy
    simpa using hlt.ne'

/-! ## Strings -/

theorem cString_some (h : cString buffer = some s) :
    (∀ k < s.length, s[k]? = some (buffer k)) ∧ buffer s.length = 0 := by
  obtain ⟨i, hfind, rfl⟩ := Option.map_eq_some_iff.1 h
  have hzero := List.find?_some hfind
  rw [beq_iff_eq] at hzero
  rw [length_read]
  refine ⟨fun k hk => ?_, hzero⟩
  rw [Bytes.read, List.getElem?_map, List.getElem?_range hk, Option.map_some, Nat.zero_add]

theorem cString_of_zero (hk : k < imageSize) (hzero : buffer k = 0)
    (hne : ∀ j < k, buffer j ≠ 0) : cString buffer = some (Bytes.read buffer 0 k) := by
  have hfind : (List.range imageSize).find? (fun i => buffer i == 0) = some k := by
    rw [List.find?_range_eq_some]
    refine ⟨beq_iff_eq.2 hzero, List.mem_range.2 hk, fun j hj => ?_⟩
    rw [Bool.not_eq_true', beq_eq_false_iff_ne]
    exact hne j hj
  rw [cString, hfind, Option.map_some]

/-- The strings that `copy` copies, of at most `left` buffers. -/
def strings : ℕ → Mem → List UInt8 → Option (List Name)
  | 0, _, _ => some []
  | left + 1, buffer, data =>
    let chunk := data.take ext2BlockSize
    let buffer := write buffer 0 chunk
    if chunk = [] then some []
    else (cString buffer).bind fun s =>
      (strings left buffer (data.drop ext2BlockSize)).map (s :: ·)

/-- The blocks that a file of that length needs. -/
def blocksFor (n : ℕ) : ℕ := (n + (ext2BlockSize - 1)) / ext2BlockSize

theorem strings_succ (left : ℕ) (buffer : Mem) (hne : data ≠ []) :
    strings (left + 1) buffer data =
      (cString (write buffer 0 (data.take ext2BlockSize))).bind fun s =>
        (strings left (write buffer 0 (data.take ext2BlockSize)) (data.drop ext2BlockSize)).map
          (s :: ·) := by
  have hchunk : data.take ext2BlockSize ≠ [] := by
    rw [ne_eq, List.take_eq_nil_iff, not_or]
    exact ⟨by decide, hne⟩
  rw [strings]
  exact if_neg hchunk

theorem blocksFor_drop (hne : data ≠ []) :
    blocksFor data.length = blocksFor (data.drop ext2BlockSize).length + 1 := by
  have hpos := List.length_pos_iff.2 hne
  rw [List.length_drop, blocksFor, blocksFor, ext2BlockSize]
  omega

theorem length_strings (h : strings left buffer data = some ss) :
    ss.length = min left (blocksFor data.length) := by
  induction left generalizing buffer data ss with
  | zero =>
    obtain rfl := Option.some.inj h
    simp
  | succ left ih =>
    by_cases hne : data = []
    · rw [hne, strings] at h
      obtain rfl := Option.some.inj h
      rw [hne]
      rfl
    · rw [strings_succ left buffer hne] at h
      obtain ⟨s, -, h⟩ := Option.bind_eq_some_iff.1 h
      obtain ⟨ss', hss', rfl⟩ := Option.map_eq_some_iff.1 h
      rw [List.length_cons, ih hss', blocksFor_drop hne]
      omega

/-- Take a new block for each string and copy it there. -/
def putStrings (n : ℕ) : ℕ → Image → List Name → Image
  | _, img, [] => img
  | index, img, s :: ss =>
    let (block, img) := addBlock img n index
    putStrings n (index + 1) (strcpy img (block * ext2BlockSize) s) ss

theorem putStrings_cons (n index : ℕ) (im : Image) (s : Name) (ss : List Name) :
    putStrings n index im (s :: ss) = putStrings n (index + 1)
      (strcpy (addBlock im n index).2 ((addBlock im n index).1 * ext2BlockSize) s) ss := by
  rw [putStrings]

/-- **The loop of `copy`** and what follows it: the strings, one more block if there is a pointer
left for it, and the size. -/
theorem copyBlocks_eq (hleft : left ≤ 12) :
    copyBlocks n left im buffer data total = (strings left buffer data).map fun ss =>
      let im' := putStrings n (12 - left) im ss
      setISize (if ss.length < left then (addBlock im' n (12 - left + ss.length)).2 else im') n
        (total + min data.length (left * ext2BlockSize)) := by
  induction left generalizing im buffer data total with
  | zero =>
    rw [copyBlocks_zero, strings, Option.map_some, Nat.zero_mul, Nat.min_zero]
    rfl
  | succ left ih =>
    have hindex : 12 - (left + 1) = 11 - left := by omega
    by_cases hne : data = []
    · rw [copyBlocks_succ, if_pos (by rw [hne]; rfl), hne, strings, hindex]
      simp only [List.take_nil, if_true, Option.map_some, List.length_nil, Nat.zero_min]
      rw [if_pos (by omega)]
      rfl
    · have hchunk : data.take ext2BlockSize ≠ [] := by
        rw [ne_eq, List.take_eq_nil_iff, not_or]
        exact ⟨by decide, hne⟩
      rw [copyBlocks_succ, if_neg hchunk, strings_succ left buffer hne]
      cases cString (write buffer 0 (data.take ext2BlockSize)) with
      | none => rfl
      | some s =>
        simp only [Option.bind_some]
        rw [ih (by omega), Option.map_map]
        congr 1
        funext ss
        have hsize : total + (data.take ext2BlockSize).length +
            min (data.drop ext2BlockSize).length (left * ext2BlockSize) =
            total + min data.length ((left + 1) * ext2BlockSize) := by
          rw [List.length_take, List.length_drop, Nat.succ_mul]
          omega
        have hnext : 12 - left = 11 - left + 1 := by omega
        simp only [Function.comp_def, putStrings_cons, List.length_cons, hsize, hindex, hnext,
          Nat.add_lt_add_iff_right]
        rw [Nat.add_right_comm, Nat.add_assoc]

/-! ## One block more -/

/-- The block bitmap, the free counts and the inode. -/
def fileBytes (img : Image) (n : ℕ) : Set ℕ :=
  blockBytes (bgBlockBitmap img) ∪ freeCounts ∪ inodeField img n 0 128

theorem SameShape.fileBytes_eq (h : SameShape im im') (n : ℕ) :
    fileBytes im' n = fileBytes im n := by
  rw [fileBytes, fileBytes, h.blockBitmap, h.inodeField_eq]

theorem iBlock_def (img : Image) (n k : ℕ) :
    iBlock img n k = load img (inodeAddr img n + (40 + 4 * k)) 4 := by
  rw [← Nat.add_assoc]
  rfl

section

variable (hg : Geometry im) (hn₁ : 1 ≤ n) (hn₂ : n ≤ sInodesCount im)
include hg hn₁ hn₂

/-- A store into the inode. -/
theorem storeInode_spec {off len : ℕ} (hlen : off + len ≤ 128) (v : ℕ) :
    SameShape im (store im (inodeAddr im n + off) len v) ∧
      Frame (inodeField im n off len) im (store im (inodeAddr im n + off) len v) ∧
      load (store im (inodeAddr im n + off) len v)
        (inodeAddr (store im (inodeAddr im n + off) len v) n + off) len = v % 256 ^ len ∧
      ∀ off' len', off' + len' ≤ 128 → off + len ≤ off' ∨ off' + len' ≤ off →
        SameField im (store im (inodeAddr im n + off) len v) n off' len' := by
  have hframe : Frame (inodeField im n off len) im (store im (inodeAddr im n + off) len v) :=
    frame_storeInode subset_rfl (.refl _ _) (.refl _) le_rfl le_rfl
  have hshape : SameShape im (store im (inodeAddr im n + off) len v) :=
    .of_frame hframe (disjoint_inodeField_header hg hn₁ hn₂ hlen)
  refine ⟨hshape, hframe, ?_, fun off' len' hlen' hoff => ?_⟩
  · rw [hshape.inodeAddr_eq, load_store]
  · exact load_inodeField hframe hshape
      (disjoint_inodeField hn₁ hn₁ hlen' hlen (.inr (by omega)))

/-- What a block that is added to the file changes. -/
structure BlockAdded (im im' : Image) (n index : ℕ) : Prop where
  shape : SameShape im im'
  frame : Frame (fileBytes im n) im im'
  free : freeBlocks im' = (freeBlocks im).tail
  count : iBlocks im' n = (iBlocks im n + 1) % 2 ^ 32
  pointer : ∀ k < 15, iBlock im' n k = if k = index then (freeBlocks im).headD 0
    else iBlock im n k

theorem addBlock_added (hindex : index < 15) :
    (addBlock im n index).1 = (freeBlocks im).headD 0 ∧
      BlockAdded im (addBlock im n index).2 n index := by
  let x := (findFreeBlock im).1
  let im₁ := (findFreeBlock im).2
  let im₂ := setIBlock im₁ n index x
  let im₃ := setIBlocks im₂ n (iBlocks im₂ n + 1)
  have hadd : addBlock im n index = (x, im₃) := rfl
  obtain ⟨hfirst, hrest⟩ := findFreeBlock_freeBlocks hg
  have hmarks := findFreeBlock_marks hg
  have hblocks := hg.blocks
  have hxle : x ≤ sBlocksCount im := hmarks.range
  have hs₁ : SameShape im im₁ := .of_frame hmarks.frame (Set.disjoint_union_left.2
    ⟨disjoint_blockBytes_header hg.blockBitmap, disjoint_freeCounts_header⟩)
  have hg₁ := hs₁.geometry hg
  have hn₂' : n ≤ sInodesCount im₁ := hs₁.inodes.symm ▸ hn₂
  have heq : im₂ = store im₁ (inodeAddr im₁ n + (40 + 4 * index)) 4 x := by
    rw [← Nat.add_assoc]
    rfl
  obtain ⟨hs₂, hf₂, hset₂, hkept₂⟩ :=
    storeInode_spec hg₁ hn₁ hn₂' (show 40 + 4 * index + 4 ≤ 128 by omega) x
  rw [← heq] at hs₂ hf₂ hset₂ hkept₂
  have hg₂ := hs₂.geometry hg₁
  obtain ⟨hs₃, hf₃, hset₃, hkept₃⟩ := storeInode_spec hg₂ hn₁ (hs₂.inodes.symm ▸ hn₂')
    (show 28 + 4 ≤ 128 by decide) (iBlocks im₂ n + 1)
  change SameShape im₂ im₃ at hs₃
  change Frame _ im₂ im₃ at hf₃
  change load im₃ (inodeAddr im₃ n + 28) 4 = _ at hset₃
  change ∀ off' len', _ → _ → SameField im₂ im₃ n off' len' at hkept₃
  have hfield : ∀ off len, off + len ≤ 128 → SameField im im₁ n off len := fun off len hlen =>
    load_inodeField hmarks.frame hs₁ (Set.disjoint_union_right.2
      ⟨disjoint_inodeField_blockBytes hn₁ hn₂ hlen hg.blockBitmap_table,
        disjoint_inodeField_freeCounts hg hn₁ hn₂ hlen⟩)
  have hsub : ∀ {off len}, off + len ≤ 128 → inodeField im n off len ⊆ fileBytes im n := by
    intro off len hlen i hi
    exact .inr (inodeField_mono (Nat.zero_le off) (by omega) hi)
  rw [hadd]
  refine ⟨hfirst, (hs₁.trans hs₂).trans hs₃, ?_, ?_, ?_, fun k hk => ?_⟩
  · refine (hmarks.frame.mono fun i hi => .inl hi).trans ((hf₂.mono ?_).trans (hf₃.mono ?_))
    · rw [hs₁.inodeField_eq]
      exact hsub (by omega)
    · rw [(hs₁.trans hs₂).inodeField_eq]
      exact hsub (by decide)
  · -- the stores into the inode are apart from the bitmap
    have hbitmap : ∀ {off len}, off + len ≤ 128 → Disjoint (blockBytes (bgBlockBitmap im₁))
        (inodeField im₁ n off len) := fun hlen =>
      (disjoint_inodeField_blockBytes hn₁ hn₂' hlen hg₁.blockBitmap_table).symm
    rw [← hrest]
    refine freeBlocks_congr (hs₂.trans hs₃) ((agree_blockBytes hf₂ (hbitmap (by omega))).trans
      (agree_blockBytes hf₃ ?_)) hg₁.blocks
    rw [hs₂.inodeField_eq]
    exact hbitmap (by decide)
  · have hcount : iBlocks im₂ n = iBlocks im n :=
      (hfield 28 4 (by decide)).trans (hkept₂ 28 4 (by decide) (.inr (by omega)))
    rw [← hcount]
    exact hset₃
  · rw [iBlock_def, iBlock_def, show load im₃ (inodeAddr im₃ n + (40 + 4 * k)) 4 = _ from
      hkept₃ (40 + 4 * k) 4 (by omega) (.inl (by omega))]
    split
    · rename_i hk
      rw [hk, hset₂, ← hfirst]
      exact Nat.mod_eq_of_lt (show x < 256 ^ 4 by omega)
    · rename_i hk
      exact (hfield (40 + 4 * k) 4 (by omega)).trans
        (hkept₂ (40 + 4 * k) 4 (by omega) (by omega))

end

/-! ## The strings in the blocks -/

/-- The bytes that `strcpy` writes when it copies a string to the start of a block. -/
def stringBytes (block : ℕ) (s : Name) : Set ℕ :=
  Set.Ico (block * ext2BlockSize) (block * ext2BlockSize + s.length + 1)

theorem strcpy_bytes (m : Mem) (x : ℕ) (s : Name) :
    Frame (stringBytes x s) m (strcpy m (x * ext2BlockSize) s) :=
  (Frame.refl _ _).write fun i hi hlt => Set.mem_Ico.2 ⟨hi, by simpa [Nat.add_assoc] using hlt⟩

theorem strcpy_congr {m m' : Mem} {a : ℕ} (h : m' a = m a) (pos : ℕ) (s : Name) :
    strcpy m' pos s a = strcpy m pos s a := by
  unfold strcpy write
  rw [h]

theorem strcpy_getD (m : Mem) {x j : ℕ} (hj : j ≤ s.length) :
    strcpy m (x * ext2BlockSize) s (x * ext2BlockSize + j) = (s ++ [0]).getD j 0 := by
  unfold strcpy write
  rw [if_pos (by omega), Nat.add_sub_cancel_left, List.getD_eq_getElem?_getD,
    List.getD_eq_getElem?_getD, List.getElem?_eq_getElem (by simp; omega)]
  rfl

/-- The memory when the strings have been copied one after the other, each to its block. -/
def lay : Mem → List (ℕ × Name) → Mem
  | m, [] => m
  | m, (x, s) :: ps => lay (strcpy m (x * ext2BlockSize) s) ps

theorem lay_congr {m m' : Mem} {a : ℕ} (h : m' a = m a) (ps : List (ℕ × Name)) :
    lay m' ps a = lay m ps a := by
  induction ps generalizing m m' with
  | nil => exact h
  | cons p ps ih =>
    exact ih (strcpy_congr h _ p.2)

theorem lay_of_notMem (m : Mem) {a : ℕ} (h : ∀ p ∈ ps, a ∉ stringBytes p.1 p.2) :
    lay m ps a = m a := by
  induction ps generalizing m with
  | nil => rfl
  | cons p ps ih =>
    rw [List.forall_mem_cons] at h
    exact (ih _ h.2).trans (strcpy_bytes m p.1 p.2 a h.1)

/-- The block that each string goes to, or 0 when there is none left. -/
def targets : List ℕ → List Name → List (ℕ × Name)
  | _, [] => []
  | xs, s :: ss => (xs.headD 0, s) :: targets xs.tail ss

theorem targets_eq_zip (hlen : ss.length ≤ xs.length) : targets xs ss = xs.zip ss := by
  induction ss generalizing xs with
  | nil => rw [List.zip_nil_right, targets]
  | cons s ss ih =>
    rw [List.length_cons] at hlen
    obtain ⟨x, xs, rfl⟩ := List.exists_cons_of_length_pos (show 0 < xs.length by omega)
    rw [List.length_cons] at hlen
    rw [targets, List.headD_cons, List.tail_cons, ih (by omega), List.zip_cons_cons]

theorem getD_tail (xs : List ℕ) (k : ℕ) : xs.tail.getD k 0 = xs.getD (k + 1) 0 := by
  cases xs with
  | nil => rfl
  | cons x xs => rfl

/-- What the loop of `copy` looks at, apart from the free counts. -/
def keyBytes (img : Image) (n : ℕ) : Set ℕ :=
  header ∪ blockBytes (bgBlockBitmap img) ∪ inodeField img n 0 128

theorem SameShape.keyBytes_eq (h : SameShape im im') (n : ℕ) : keyBytes im' n = keyBytes im n := by
  rw [keyBytes, keyBytes, h.blockBitmap, h.inodeField_eq]

/-- What the inode and the blocks hold when the strings are there. -/
structure StringsPut (im im' : Image) (n index : ℕ) (ss : List Name) : Prop where
  shape : SameShape im im'
  free : freeBlocks im' = (freeBlocks im).drop ss.length
  count : iBlocks im' n = (iBlocks im n + ss.length) % 2 ^ 32
  pointer : ∀ k < 15, iBlock im' n k =
    if index ≤ k ∧ k < index + ss.length then (freeBlocks im).getD (k - index) 0
    else iBlock im n k
  bytes : ∀ a ∉ fileBytes im n, im' a = lay im (targets (freeBlocks im) ss) a

/-- A string that is copied apart from these leaves the shape, the free blocks and the inode. -/
theorem strcpy_apart (hcount : sBlocksCount im ≤ 8192)
    (hdisj : Disjoint (stringBytes x s) (keyBytes im n)) :
    SameShape im (strcpy im (x * ext2BlockSize) s) ∧
      freeBlocks (strcpy im (x * ext2BlockSize) s) = freeBlocks im ∧
      ∀ off len, off + len ≤ 128 → SameField im (strcpy im (x * ext2BlockSize) s) n off len := by
  have hframe := strcpy_bytes im x s
  have hkey := hdisj
  rw [keyBytes, Set.disjoint_union_right, Set.disjoint_union_right] at hkey
  obtain ⟨⟨hheader, hbitmap⟩, hinode⟩ := hkey
  have hshape : SameShape im (strcpy im (x * ext2BlockSize) s) := .of_frame hframe hheader
  refine ⟨hshape, freeBlocks_congr hshape (agree_blockBytes hframe hbitmap.symm) hcount,
    fun off len hlen => load_inodeField hframe hshape (Set.disjoint_of_subset_left ?_ hinode.symm)⟩
  exact inodeField_mono (Nat.zero_le off) (by omega)

/-- **The strings go into the blocks that are free.** -/
theorem putStrings_spec (hg : Geometry im) (hn₁ : 1 ≤ n) (hn₂ : n ≤ sInodesCount im)
    (hindex : index + ss.length ≤ 12)
    (hclear : ∀ p ∈ targets (freeBlocks im) ss,
      Disjoint (stringBytes p.1 p.2) (keyBytes im n)) :
    StringsPut im (putStrings n index im ss) n index ss := by
  induction ss generalizing im index with
  | nil =>
    refine ⟨.refl _, rfl, (Nat.mod_eq_of_lt (load_lt _ _ _)).symm, fun k _ => ?_,
      fun a _ => rfl⟩
    rw [if_neg (by simp)]
    rfl
  | cons s ss ih =>
    rw [List.length_cons] at hindex
    obtain ⟨hx, hadd⟩ := addBlock_added hg hn₁ hn₂ (show index < 15 by omega)
    rw [targets, List.forall_mem_cons] at hclear
    have hblocks := hg.blocks
    let x := (freeBlocks im).headD 0
    let im₁ := (addBlock im n index).2
    let im₂ := strcpy im₁ (x * ext2BlockSize) s
    have hput : putStrings n index im (s :: ss) = putStrings n (index + 1) im₂ ss := by
      rw [putStrings_cons, hx]
    obtain ⟨hshape, hfree₂, hfield⟩ := strcpy_apart
      (show sBlocksCount im₁ ≤ 8192 by rw [hadd.shape.blocks]; exact hblocks)
      (show Disjoint (stringBytes x s) (keyBytes im₁ n) by
        rw [hadd.shape.keyBytes_eq]; exact hclear.1)
    change SameShape im₁ im₂ at hshape
    change freeBlocks im₂ = freeBlocks im₁ at hfree₂
    have hshape₂ : SameShape im im₂ := hadd.shape.trans hshape
    rw [hadd.free] at hfree₂
    have hrest := ih (hshape₂.geometry hg) (hshape₂.inodes.symm ▸ hn₂)
      (show index + 1 + ss.length ≤ 12 by omega)
      (by rw [hfree₂, hshape₂.keyBytes_eq]; exact hclear.2)
    rw [hput]
    refine ⟨hshape₂.trans hrest.shape, ?_, ?_, fun k hk => ?_, fun a ha => ?_⟩
    · rw [hrest.free, hfree₂, List.length_cons, List.drop_tail]
    · have hcount : iBlocks im₂ n = iBlocks im₁ n := hfield 28 4 (by decide)
      rw [hrest.count, hcount, hadd.count, List.length_cons]
      omega
    · have hpointer : iBlock im₂ n k = iBlock im₁ n k := by
        rw [iBlock_def, iBlock_def]
        exact hfield (40 + 4 * k) 4 (by omega)
      rw [hrest.pointer k hk, hfree₂, hpointer, hadd.pointer k hk, getD_tail, List.length_cons]
      by_cases hki : k = index
      · rw [if_neg (by omega), if_pos hki, if_pos (by omega), hki, Nat.sub_self,
          List.headD_eq_head?_getD, List.getD_eq_getElem?_getD, List.head?_eq_getElem?]
      · by_cases hlt : index + 1 ≤ k ∧ k < index + 1 + ss.length
        · rw [if_pos hlt, if_pos (by omega), show k - (index + 1) + 1 = k - index by omega]
        · rw [if_neg hlt, if_neg hki, if_neg (by omega)]
    · have hbyte : im₂ a = strcpy im (x * ext2BlockSize) s a := strcpy_congr (hadd.frame a ha) _ s
      rw [hrest.bytes a (by rw [hshape₂.fileBytes_eq]; exact ha), hfree₂, targets, lay]
      exact lay_congr hbyte _

/-- What the inode and the blocks hold after `copy`, with the block that it takes last. -/
structure FilePut (im im' : Image) (n : ℕ) (ss : List Name) : Prop where
  shape : SameShape im im'
  count : iBlocks im' n = (iBlocks im n + min 12 (ss.length + 1)) % 2 ^ 32
  pointer : ∀ k < 15, iBlock im' n k =
    if k < min 12 (ss.length + 1) then (freeBlocks im).getD k 0 else iBlock im n k
  bytes : ∀ a ∉ fileBytes im n, im' a = lay im (targets (freeBlocks im) ss) a

section

variable (hg : Geometry im) (hn₁ : 1 ≤ n) (hn₂ : n ≤ sInodesCount im)
include hg hn₁ hn₂

theorem StringsPut.lastBlock (h : StringsPut im im' n 0 ss) (hlen : ss.length ≤ 12) :
    FilePut im (if ss.length < 12 then (addBlock im' n ss.length).2 else im') n ss := by
  by_cases hlt : ss.length < 12
  · obtain ⟨-, hadd⟩ := addBlock_added (h.shape.geometry hg) hn₁ (h.shape.inodes.symm ▸ hn₂)
      (show ss.length < 15 by omega)
    rw [if_pos hlt]
    refine ⟨h.shape.trans hadd.shape, ?_, fun k hk => ?_, fun a ha => ?_⟩
    · rw [hadd.count, h.count, Nat.min_eq_right (by omega)]
      omega
    · rw [hadd.pointer k hk, h.pointer k hk, h.free, Nat.min_eq_right (by omega)]
      by_cases hks : k = ss.length
      · rw [if_pos hks, if_pos (by omega), hks, List.headD_eq_head?_getD, List.head?_drop,
          List.getD_eq_getElem?_getD]
      · rw [if_neg hks, Nat.sub_zero]
        exact if_congr (by omega) rfl rfl
    · rw [hadd.frame a (by rw [h.shape.fileBytes_eq]; exact ha), h.bytes a ha]
  · rw [if_neg hlt]
    refine ⟨h.shape, ?_, fun k hk => ?_, h.bytes⟩
    · rw [h.count, Nat.min_eq_left (by omega)]
      congr 2
      omega
    · rw [h.pointer k hk, Nat.min_eq_left (by omega), Nat.sub_zero]
      exact if_congr (by omega) rfl rfl

/-- The size is the last field that is set. -/
theorem FilePut.setISize (h : FilePut im im' n ss) (total : ℕ) :
    FilePut im (setISize im' n total) n ss ∧
      iSize (Ext2.setISize im' n total) n = total % 2 ^ 32 := by
  obtain ⟨hshape, hframe, hset, hkept⟩ := storeInode_spec (h.shape.geometry hg) hn₁
    (h.shape.inodes.symm ▸ hn₂) (show 4 + 4 ≤ 128 by decide) total
  change SameShape im' (Ext2.setISize im' n total) at hshape
  change Frame _ im' (Ext2.setISize im' n total) at hframe
  change ∀ off len, _ → _ → SameField im' (Ext2.setISize im' n total) n off len at hkept
  refine ⟨⟨h.shape.trans hshape, ?_, fun k hk => ?_, fun a ha => ?_⟩, hset⟩
  · rw [← h.count]
    exact hkept 28 4 (by decide) (.inl (by decide))
  · rw [← h.pointer k hk, iBlock_def, iBlock_def]
    exact hkept (40 + 4 * k) 4 (by omega) (.inl (by omega))
  · rw [← h.bytes a ha]
    refine hframe a fun hin => ha (.inr ?_)
    rw [h.shape.inodeField_eq] at hin
    exact inodeField_mono (by decide) (by decide) hin

/-- **What `copy` does.** -/
theorem copyBlocks_spec (hss : strings 12 buffer data = some ss)
    (hclear : ∀ p ∈ targets (freeBlocks im) ss,
      Disjoint (stringBytes p.1 p.2) (keyBytes im n)) :
    ∃ im', copyBlocks n 12 im buffer data 0 = some im' ∧ FilePut im im' n ss ∧
      iSize im' n = min data.length (12 * ext2BlockSize) := by
  have hle : ss.length ≤ 12 := by
    rw [length_strings hss]
    exact Nat.min_le_left _ _
  have hput := putStrings_spec hg hn₁ hn₂ (show 0 + ss.length ≤ 12 by omega) hclear
  obtain ⟨hfile, hsize⟩ := (hput.lastBlock hg hn₁ hn₂ hle).setISize hg hn₁ hn₂
    (min data.length (12 * ext2BlockSize))
  have hlt : min data.length (12 * ext2BlockSize) < 2 ^ 32 := by
    have hmin := Nat.min_le_right data.length (12 * ext2BlockSize)
    unfold ext2BlockSize at hmin ⊢
    omega
  refine ⟨_, ?_, hfile, hsize.trans (Nat.mod_eq_of_lt hlt)⟩
  rw [copyBlocks_eq le_rfl, hss, Option.map_some, Nat.sub_self, Nat.zero_add, Nat.zero_add]

end

/-! ## Reading a file back -/

/-- The blocks of data below a pointer, with `level` blocks of pointers on the way to each. -/
def dataUnder (img : Image) : ℕ → ℕ → List ℕ
  | 0, p => if p = 0 then [] else [p]
  | level + 1, p =>
    if p = 0 then []
    else (List.range 256).flatMap fun i =>
      dataUnder img level (load img (p * ext2BlockSize + 4 * i) 4)

/-- The number of blocks below a pointer, those of pointers included. -/
def usedUnder (img : Image) : ℕ → ℕ → ℕ
  | 0, p => if p = 0 then 0 else 1
  | level + 1, p =>
    if p = 0 then 0
    else 1 + ((List.range 256).map fun i =>
      usedUnder img level (load img (p * ext2BlockSize + 4 * i) 4)).sum

/-- The blocks of data of a file, in order. The last three pointers are to blocks of pointers. -/
def fileBlocks (img : Image) (n : ℕ) : List ℕ :=
  (List.range 15).flatMap fun k => dataUnder img (k - 11) (iBlock img n k)

def usedBlocks (img : Image) (n : ℕ) : ℕ :=
  ((List.range 15).map fun k => usedUnder img (k - 11) (iBlock img n k)).sum

/-- The first block of a file that is below pointer `k`. -/
def firstUnder : ℕ → ℕ
  | 13 => 12 + 256
  | 14 => 12 + 256 + 256 ^ 2
  | k => k

/-- Inode `n` is a file that reads as `data`. A pointer to blocks behind its end is 0. -/
structure ReadsBack (img : Image) (n : ℕ) (data : List UInt8) : Prop where
  size : iSize img n = data.length
  content : ((fileBlocks img n).flatMap fun x =>
    Bytes.read img (x * ext2BlockSize) ext2BlockSize).take data.length = data
  blocks : (fileBlocks img n).length = blocksFor data.length
  unused : ∀ k < 15, blocksFor data.length ≤ firstUnder k → iBlock img n k = 0
  sectors : iBlocks img n = 2 * usedBlocks img n

theorem dataUnder_zero (img : Image) (level : ℕ) : dataUnder img level 0 = [] := by
  cases level with
  | zero => rfl
  | succ level => rfl

theorem usedUnder_zero (img : Image) (level : ℕ) : usedUnder img level 0 = 0 := by
  cases level with
  | zero => rfl
  | succ level => rfl

/-- A file of at most twelve blocks. -/
theorem fileBlocks_direct (hpos : ∀ x ∈ xs, x ≠ 0) (hlen : xs.length ≤ 12)
    (hpointer : ∀ k < 15, iBlock img n k = xs.getD k 0) :
    fileBlocks img n = xs ∧ usedBlocks img n = xs.length := by
  have hrange : List.range 15 = List.range xs.length ++
      (List.range (15 - xs.length)).map (xs.length + ·) := by
    rw [← List.range_add]
    congr 1
    omega
  have hset : ∀ k (hk : k < xs.length), k - 11 = 0 ∧ iBlock img n k = xs[k] ∧ xs[k] ≠ 0 := by
    intro k hk
    refine ⟨by omega, ?_, hpos _ (List.getElem_mem hk)⟩
    rw [hpointer k (by omega), List.getD_eq_getElem?_getD, List.getElem?_eq_getElem hk]
    rfl
  have hunset : ∀ k ∈ (List.range (15 - xs.length)).map (xs.length + ·), iBlock img n k = 0 := by
    intro k hk
    obtain ⟨i, hi, rfl⟩ := List.mem_map.1 hk
    have hlt := List.mem_range.1 hi
    rw [hpointer _ (by omega), List.getD_eq_getElem?_getD, List.getElem?_eq_none (by omega)]
    rfl
  constructor
  · have hlast : ((List.range (15 - xs.length)).map (xs.length + ·)).flatMap
        (fun k => dataUnder img (k - 11) (iBlock img n k)) = [] :=
      List.flatMap_eq_nil_iff.2 fun k hk => by rw [hunset k hk, dataUnder_zero]
    rw [fileBlocks, hrange, List.flatMap_append, hlast, List.append_nil]
    have hdata : ∀ k ∈ List.range xs.length,
        dataUnder img (k - 11) (iBlock img n k) = [xs.getD k 0] := by
      intro k hk
      obtain ⟨hlevel, heq, hne⟩ := hset k (List.mem_range.1 hk)
      rw [hlevel, ← hpointer k (by have hlt := List.mem_range.1 hk; omega)]
      exact if_neg (heq ▸ hne)
    rw [List.flatMap_congr hdata, ← List.map_eq_flatMap]
    refine List.ext_getElem (by simp) fun k hk hk' => ?_
    rw [List.getElem_map, List.getElem_range, List.getD_eq_getElem?_getD,
      List.getElem?_eq_getElem hk']
    rfl
  · have hlast : (((List.range (15 - xs.length)).map (xs.length + ·)).map
        fun k => usedUnder img (k - 11) (iBlock img n k)).sum = 0 := by
      rw [List.sum_eq_zero_iff_forall_eq_nat]
      intro v hv
      obtain ⟨k, hk, rfl⟩ := List.mem_map.1 hv
      rw [hunset k hk, usedUnder_zero]
    have hused : ∀ k ∈ List.range xs.length, usedUnder img (k - 11) (iBlock img n k) = 1 := by
      intro k hk
      obtain ⟨hlevel, heq, hne⟩ := hset k (List.mem_range.1 hk)
      rw [hlevel]
      exact if_neg (heq ▸ hne)
    rw [usedBlocks, hrange, List.map_append, List.sum_append, hlast, List.map_congr_left hused]
    simp

/-! ## What the blocks read as -/

/-- The bytes of the file behind the end of a string stand in the block of the string already when
its turn comes. -/
def Lands : Mem → List (ℕ × Name) → List UInt8 → Prop
  | _, [], _ => True
  | m, (x, s) :: ps, data =>
    (∀ j, s.length < j → j < ext2BlockSize → j < data.length →
      m (x * ext2BlockSize + j) = data.getD j 0) ∧
    Lands (strcpy m (x * ext2BlockSize) s) ps (data.drop ext2BlockSize)

/-- A block reads as the first part of the file. -/
theorem take_read_iff {m : Mem} {a : ℕ} :
    (Bytes.read m a ext2BlockSize).take data.length = data.take ext2BlockSize ↔
      ∀ j < ext2BlockSize, j < data.length → m (a + j) = data.getD j 0 := by
  have hlen : ((Bytes.read m a ext2BlockSize).take data.length).length =
      (data.take ext2BlockSize).length := by
    rw [List.length_take, List.length_take, length_read, Nat.min_comm]
  have hread : ∀ j, j < ext2BlockSize → j < data.length →
      ((Bytes.read m a ext2BlockSize).take data.length)[j]? = some (m (a + j)) := by
    intro j hj hjd
    rw [List.getElem?_take_of_lt hjd, Bytes.read, List.getElem?_map, List.getElem?_range hj]
    rfl
  have hdata : ∀ j, j < ext2BlockSize → j < data.length →
      (data.take ext2BlockSize)[j]? = some (data.getD j 0) := by
    intro j hj hjd
    rw [List.getElem?_take_of_lt hj, List.getD_eq_getElem?_getD, List.getElem?_eq_getElem hjd]
    rfl
  constructor
  · intro heq j hj hjd
    rw [← Option.some_inj, ← hread j hj hjd, heq, hdata j hj hjd]
  · intro hall
    refine List.ext_getElem? fun j => ?_
    by_cases hlt : j < ext2BlockSize ∧ j < data.length
    · rw [hread j hlt.1 hlt.2, hdata j hlt.1 hlt.2, hall j hlt.1 hlt.2]
    · have hout : (data.take ext2BlockSize).length ≤ j := by
        rw [List.length_take]
        omega
      rw [List.getElem?_eq_none hout, List.getElem?_eq_none (hlen.trans_le hout)]

/-- The string of a part of the file is the part, up to its end. -/
theorem strcpy_part (hs : cString (write buffer 0 (data.take ext2BlockSize)) = some s) (m : Mem)
    {x j : ℕ} (hj : j < ext2BlockSize) (hjd : j < data.length) (hjs : j ≤ s.length) :
    strcpy m (x * ext2BlockSize) s (x * ext2BlockSize + j) = data.getD j 0 := by
  obtain ⟨hbytes, hend⟩ := cString_some hs
  have hbuffer : write buffer 0 (data.take ext2BlockSize) j = data.getD j 0 := by
    rw [write, if_pos (Nat.zero_le j), Nat.sub_zero, List.getD_eq_getElem?_getD,
      List.getElem?_take_of_lt hj, List.getElem?_eq_getElem hjd, List.getD_eq_getElem?_getD,
      List.getElem?_eq_getElem hjd]
    rfl
  rw [strcpy_getD m hjs, ← hbuffer, List.getD_eq_getElem?_getD]
  rcases Nat.lt_or_eq_of_le hjs with hlt | rfl
  · rw [List.getElem?_append_left hlt, hbytes j hlt]
    rfl
  · rw [hend, List.getElem?_append_right le_rfl, Nat.sub_self]
    rfl

/-- **When the blocks read as the file.** -/
theorem lands_iff (m : Mem) (hss : strings left buffer data = some ss)
    (hle : data.length ≤ left * ext2BlockSize) (hlen : xs.length = ss.length)
    (hsorted : xs.Pairwise (· < ·)) :
    (xs.flatMap fun x => Bytes.read (lay m (xs.zip ss)) (x * ext2BlockSize)
      ext2BlockSize).take data.length = data ↔ Lands m (xs.zip ss) data := by
  induction left generalizing m buffer data xs ss with
  | zero =>
    obtain rfl := Option.some.inj hss
    obtain rfl : data = [] := List.length_eq_zero_iff.1 (by omega)
    rw [List.length_nil, List.take_zero, List.zip_nil_right]
    simp [Lands]
  | succ left ih =>
    by_cases hne : data = []
    · subst hne
      rw [strings] at hss
      obtain rfl := Option.some.inj hss
      rw [List.length_nil, List.take_zero, List.zip_nil_right]
      simp [Lands]
    · rw [strings_succ left buffer hne] at hss
      obtain ⟨s, hs, hss⟩ := Option.bind_eq_some_iff.1 hss
      obtain ⟨ss', hss', rfl⟩ := Option.map_eq_some_iff.1 hss
      obtain ⟨x, xs', rfl⟩ := List.exists_cons_of_length_pos (show 0 < xs.length by
        rw [hlen, List.length_cons]; omega)
      rw [List.pairwise_cons] at hsorted
      rw [List.length_cons, List.length_cons, Nat.add_right_cancel_iff] at hlen
      rw [Nat.succ_mul] at hle
      have hrest := ih (strcpy m (x * ext2BlockSize) s) hss'
        (show (data.drop ext2BlockSize).length ≤ left * ext2BlockSize by
          rw [List.length_drop]; omega) hlen hsorted.2
      rw [List.length_drop] at hrest
      -- the strings after it are behind this block
      have hthis : ∀ j < ext2BlockSize, lay (strcpy m (x * ext2BlockSize) s) (xs'.zip ss')
          (x * ext2BlockSize + j) = strcpy m (x * ext2BlockSize) s (x * ext2BlockSize + j) := by
        intro j hj
        refine lay_of_notMem _ fun p hp hin => ?_
        have hlt := hsorted.1 p.1 (List.of_mem_zip hp).1
        have hge := (Set.mem_Ico.1 hin).1
        have hmul := Nat.mul_le_mul_right ext2BlockSize hlt
        rw [Nat.succ_mul] at hmul
        omega
      conv_lhs => rhs; rw [← List.take_append_drop ext2BlockSize data]
      rw [List.zip_cons_cons, List.flatMap_cons, List.take_append, length_read]
      change (_ ++ _ : List UInt8) = _ ↔ _ ∧ Lands _ (xs'.zip ss') _
      rw [← hrest]
      constructor
      · intro heq
        obtain ⟨hhead, htail⟩ := List.append_inj heq (by
          rw [List.length_take, List.length_take, length_read, Nat.min_comm])
        refine ⟨fun j hjs hj hjd => ?_, htail⟩
        have hbyte := take_read_iff.1 hhead j hj hjd
        rw [lay, hthis j hj,
          strcpy_bytes m x s _ (by rw [stringBytes, Set.mem_Ico]; omega)] at hbyte
        exact hbyte
      · rintro ⟨hhead, htail⟩
        refine congrArg₂ (· ++ ·) (take_read_iff.2 fun j hj hjd => ?_) htail
        rw [lay, hthis j hj]
        by_cases hjs : j ≤ s.length
        · exact strcpy_part hs m hj hjd hjs
        · rw [strcpy_bytes m x s _ (by rw [stringBytes, Set.mem_Ico]; omega)]
          exact hhead j (by omega) hj hjd

/-! ## When a file reads back -/

/-- The file has at most twelve blocks. When it has fewer, there is no block left for the one that
`copy` takes last. The pointers that are not set are 0 before, the count of sectors comes out right,
and the strings are the file. -/
structure Copies (img : Image) (n : ℕ) (ss : List Name) (data : List UInt8) : Prop where
  length : data.length ≤ 12 * ext2BlockSize
  full : blocksFor data.length < 12 → (freeBlocks img).length = blocksFor data.length
  stale : ∀ k < 15, blocksFor data.length < k ∨ 12 ≤ k → iBlock img n k = 0
  sectors : (iBlocks img n + min 12 (blocksFor data.length + 1)) % 2 ^ 32 =
    2 * blocksFor data.length
  lands : Lands img ((freeBlocks img).zip ss) data

theorem le_firstUnder (k : ℕ) : k ≤ firstUnder k := by
  unfold firstUnder
  split <;> omega

theorem blocksFor_le (h : data.length ≤ 12 * ext2BlockSize) : blocksFor data.length ≤ 12 := by
  unfold blocksFor ext2BlockSize at *
  omega

/-- The pointers afterwards are to the first free blocks. -/
theorem getD_take_free (hlen : data.length ≤ 12 * ext2BlockSize)
    (hfull : blocksFor data.length < 12 → (freeBlocks img).length = blocksFor data.length)
    (hstale : ∀ k < 15, blocksFor data.length < k ∨ 12 ≤ k → iBlock img n k = 0)
    (hpointer : ∀ k < 15, iBlock im n k = if k < min 12 (blocksFor data.length + 1) then
      (freeBlocks img).getD k 0 else iBlock img n k) :
    ∀ k < 15, iBlock im n k = ((freeBlocks img).take (blocksFor data.length)).getD k 0 := by
  intro k hk
  have hc := blocksFor_le hlen
  rw [hpointer k hk, List.getD_eq_getElem?_getD, List.getD_eq_getElem?_getD, List.getElem?_take]
  by_cases hkc : k < blocksFor data.length
  · rw [if_pos (by omega), if_pos hkc]
  · rw [if_neg hkc, Option.getD_none]
    split
    · rename_i hlt
      rw [List.getElem?_eq_none (by rw [hfull (by omega)]; omega), Option.getD_none]
    · rename_i hlt
      exact hstale k hk (by omega)

/-- A free block is not one of those that a tool keeps its records in. -/
theorem Sound.isData_free (h : Sound img) (hx : x ∈ freeBlocks img) : IsData img x := by
  have hfree := mem_freeBlocks.1 hx
  exact (h.spare (.inr hfree)).resolve_left (Nat.one_le_iff_ne_zero.1 hfree.1)

theorem disjoint_fileBytes (hn₁ : 1 ≤ n) (hn₂ : n ≤ sInodesCount img) (hx : IsData img x) :
    Disjoint (blockBytes x) (fileBytes img n) := by
  refine Set.disjoint_union_right.2 ⟨Set.disjoint_union_right.2
    ⟨disjoint_blockBytes hx.blockBitmap, disjoint_blockBytes_freeCounts hx.three_le⟩, ?_⟩
  exact (disjoint_inodeField_blockBytes hn₁ hn₂ (by decide) hx.table).symm

/-- The pointers after `copy`. -/
theorem FilePut.pointer_eq (hput : FilePut im im' n ss) (hss : strings 12 buffer data = some ss)
    (hfree : freeBlocks im = freeBlocks img)
    (hown : ∀ off len, 28 ≤ off → off + len ≤ 128 → SameField img im n off len) :
    ∀ k < 15, iBlock im' n k = if k < min 12 (blocksFor data.length + 1) then
      (freeBlocks img).getD k 0 else iBlock img n k := by
  intro k hk
  have hlength := length_strings hss
  have hold : iBlock im n k = iBlock img n k := by
    rw [iBlock_def, iBlock_def]
    exact hown (40 + 4 * k) 4 (by omega) (by omega)
  rw [hput.pointer k hk, hfree, hold,
    show min 12 (ss.length + 1) = min 12 (blocksFor data.length + 1) by omega]

/-- What the blocks are and read as, once the pointers are right. -/
theorem FilePut.blocks_read (hput : FilePut im im' n ss) (hss : strings 12 buffer data = some ss)
    (hs : Sound img) (hn₁ : 1 ≤ n) (hn₂ : n ≤ sInodesCount img) (hshape : SameShape img im)
    (hfree : freeBlocks im = freeBlocks img)
    (hdata : ∀ x ∈ freeBlocks img, Agree img im (x * ext2BlockSize)
      (x * ext2BlockSize + ext2BlockSize))
    (hblocks : blocksFor data.length ≤ (freeBlocks img).length)
    (hlen : data.length ≤ 12 * ext2BlockSize)
    (hpointer : ∀ k < 15,
      iBlock im' n k = ((freeBlocks img).take (blocksFor data.length)).getD k 0) :
    (fileBlocks im' n).length = blocksFor data.length ∧
      usedBlocks im' n = blocksFor data.length ∧
      (((fileBlocks im' n).flatMap fun x =>
        Bytes.read im' (x * ext2BlockSize) ext2BlockSize).take data.length = data ↔
      Lands img ((freeBlocks img).zip ss) data) := by
  have hlength := length_strings hss
  have hc := blocksFor_le hlen
  have hslen : ss.length = blocksFor data.length := by omega
  have htake : ((freeBlocks img).take (blocksFor data.length)).length =
      blocksFor data.length := by
    rw [List.length_take, Nat.min_eq_left hblocks]
  have hmem : ∀ {x}, x ∈ (freeBlocks img).take (blocksFor data.length) → x ∈ freeBlocks img :=
    List.mem_of_mem_take
  obtain ⟨hfile, hused⟩ := fileBlocks_direct
    (fun x hx => Nat.one_le_iff_ne_zero.1 (mem_freeBlocks.1 (hmem hx)).1)
    (htake.trans_le hc) hpointer
  have hzip : (freeBlocks img).zip ss =
      ((freeBlocks img).take (blocksFor data.length)).zip ss := by
    conv_lhs => rw [List.zip_eq_zip_take_min, hslen, Nat.min_eq_right hblocks, ← hslen,
      List.take_length, hslen]
  have hbytes : ∀ x ∈ (freeBlocks img).take (blocksFor data.length),
      Bytes.read im' (x * ext2BlockSize) ext2BlockSize =
        Bytes.read (lay img (((freeBlocks img).take (blocksFor data.length)).zip ss))
          (x * ext2BlockSize) ext2BlockSize := by
    intro x hx
    refine read_congr fun i hi hlt => ?_
    have hout : i ∉ fileBytes im n := by
      rw [hshape.fileBytes_eq]
      exact Set.disjoint_left.1 (disjoint_fileBytes hn₁ hn₂ (hs.isData_free (hmem hx)))
        (Set.mem_Ico.2 ⟨hi, hlt⟩)
    rw [hput.bytes i hout, hfree, targets_eq_zip (by omega), ← hzip]
    exact lay_congr (hdata x (hmem hx) i hi hlt).symm _
  refine ⟨hfile ▸ htake, hused.trans htake, ?_⟩
  rw [hfile, List.flatMap_congr hbytes, hzip]
  exact lands_iff img hss hlen (htake.trans hslen.symm) ((freeBlocks_sorted img).take)

/-- A file that reads back has no pointer behind its end: no block was left to take, and none was
there before. -/
theorem ReadsBack.stale (h : ReadsBack im n data) (hlen : data.length ≤ 12 * ext2BlockSize)
    (hblocks : blocksFor data.length ≤ (freeBlocks img).length)
    (hpointer : ∀ k < 15, iBlock im n k = if k < min 12 (blocksFor data.length + 1) then
      (freeBlocks img).getD k 0 else iBlock img n k) :
    (blocksFor data.length < 12 → (freeBlocks img).length = blocksFor data.length) ∧
      ∀ k < 15, blocksFor data.length < k ∨ 12 ≤ k → iBlock img n k = 0 := by
  have hc := blocksFor_le hlen
  constructor
  · intro hlt
    by_contra hne
    have hzero := h.unused (blocksFor data.length) (by omega) (le_firstUnder _)
    rw [hpointer _ (by omega), if_pos (by omega), List.getD_eq_getElem?_getD,
      List.getElem?_eq_getElem (by omega), Option.getD_some] at hzero
    have hpos := (mem_freeBlocks.1 (List.getElem_mem (show blocksFor data.length <
      (freeBlocks img).length by omega))).1
    omega
  · intro k hk hck
    have hle := le_firstUnder k
    have hzero := h.unused k hk (by omega)
    rw [hpointer k hk, if_neg (by omega)] at hzero
    exact hzero

/-- **When the file reads back**, for an image `im` with the free blocks of `img` and the fields of
`n` that `copy` begins with. -/
theorem readsBack_iff (hs : Sound img) (hn₁ : 1 ≤ n) (hn₂ : n ≤ sInodesCount img)
    (hshape : SameShape img im) (hfree : freeBlocks im = freeBlocks img)
    (hown : ∀ off len, 28 ≤ off → off + len ≤ 128 → SameField img im n off len)
    (hdata : ∀ x ∈ freeBlocks img, Agree img im (x * ext2BlockSize)
      (x * ext2BlockSize + ext2BlockSize))
    (hss : strings 12 buffer data = some ss)
    (hblocks : blocksFor data.length ≤ (freeBlocks img).length) (hput : FilePut im im' n ss)
    (hsize : iSize im' n = min data.length (12 * ext2BlockSize)) :
    ReadsBack im' n data ↔ Copies img n ss data := by
  have hpointer := hput.pointer_eq hss hfree hown
  have hsectors : iBlocks im' n =
      (iBlocks img n + min 12 (blocksFor data.length + 1)) % 2 ^ 32 := by
    have hlength := length_strings hss
    have hcount : iBlocks im n = iBlocks img n := hown 28 4 le_rfl (by decide)
    rw [hput.count, hcount,
      show min 12 (ss.length + 1) = min 12 (blocksFor data.length + 1) by omega]
  constructor
  · intro h
    have hlen : data.length ≤ 12 * ext2BlockSize := by
      have heq := hsize.symm.trans h.size
      omega
    obtain ⟨hfull, hstale⟩ := h.stale hlen hblocks hpointer
    obtain ⟨-, hused, hcontent⟩ := hput.blocks_read hss hs hn₁ hn₂ hshape hfree hdata hblocks hlen
      (getD_take_free hlen hfull hstale hpointer)
    refine ⟨hlen, hfull, hstale, ?_, hcontent.1 h.content⟩
    rw [← hsectors, h.sectors, hused]
  · intro h
    have htaken := getD_take_free h.length h.full h.stale hpointer
    obtain ⟨hfile, hused, hcontent⟩ := hput.blocks_read hss hs hn₁ hn₂ hshape hfree hdata hblocks
      h.length htaken
    refine ⟨hsize.trans (Nat.min_eq_left h.length), hcontent.2 h.lands, hfile, fun k hk hck => ?_,
      ?_⟩
    · have hc := blocksFor_le h.length
      have hle : blocksFor data.length ≤ k := by
        unfold firstUnder at hck
        split at hck <;> omega
      rw [htaken k hk, List.getD_eq_getElem?_getD,
        List.getElem?_eq_none (by rw [List.length_take]; omega), Option.getD_none]
    · rw [hsectors, h.sectors, hused]

/-! ## The run -/

/-- The bytes that `ext2_cp` changes before it copies. -/
def startBytes (img : Image) (b n : ℕ) : Set ℕ :=
  blockBytes (bgInodeBitmap img) ∪ freeCounts ∪ (blockBytes b ∪ inodeField img n 0 28)

/-- The image when `copy` begins. -/
structure CopyStart (img im : Image) (d b n : ℕ) (name : Name) : Prop where
  site : Site img d b n
  frame : Frame (startBytes img b n) img im
  added : ∃ as q new bs, Added img im b as q new bs ⟨n, ext2FtRegFile, name⟩

/-- **`ext2_cp` reaches `copy`** when there is a free inode and room for the name. -/
theorem addFile_start (h : Consistent img) (hinit : init img = some t) (hd : d ≠ 0)
    (hname : name.length < 255) (hfree : freeInode img ≠ 0)
    (hroom : HasRoom t img d name ext2FtRegFile) : ∃ b im,
      CopyStart img im d b (freeInode img) name ∧ ∀ env data,
        addFile env t img d name data = copyBlocks (freeInode img) 12 im env.stack data 0 := by
  have hsound := h.sound
  have hg := hsound.geometry
  have hle := (findFreeInode_marks hg).1.range
  have hinodes := hg.inodes
  have hsame := findFreeInode_sameData hg
  have hlooked := hroom
  obtain ⟨b', hpos, -⟩ := hlooked
  obtain ⟨b, hb, hreach, heq⟩ := hsound.findDirBlockPos hinit hd hpos
  rw [heq, ← findDirBlockPos_congr hsound hinit hsame] at hpos
  have hdir := hsound.dirs d hreach
  have hok := ((hdir.blocks b hb).congr (hsame b (hdir.data b hb).1)).1
  obtain ⟨r, hr⟩ : ∃ r, createLink t (findFreeInode img).2 d (findFreeInode img).1 name
      ext2FtRegFile = some r := ⟨_, createLink_eq hpos hok.tiles⟩
  obtain ⟨b, hb, -, hreach, hcases⟩ := createLink_found hsound hinit hd hsame hname
    (show (findFreeInode img).1 < 2 ^ 32 by omega) (by decide) (by decide) hr
  rcases hcases with ⟨hno, -⟩ | ⟨-, htrue, as, q, new, bs, hl⟩
  · exact absurd hroom hno
  · have hs := hsound.site hfree h.unnamed hreach hb
    have hstage := (hl.stage hs).1
    have hlinked := hstage.linkFile hs
    have hinode := hlinked.frame
    rw [(hstage.shape hs).inodeField_eq] at hinode
    refine ⟨b, linkFile r.2 (findFreeInode img).1, ⟨hs, ?_, as, q, new, bs,
      hl.added.congr hlinked.block⟩, fun env data => ?_⟩
    · refine ((findFreeInode_marks hg).1.frame.mono Set.subset_union_left).trans
        ((hl.frame.mono ?_).trans (hinode.mono ?_))
      · exact fun i hi => .inr (.inl hi)
      · exact fun i hi => .inr (.inr hi)
    · obtain ⟨fst, im⟩ := r
      obtain rfl : fst = true := htrue
      have hne : (findFreeInode img).1 ≠ 0 := hfree
      unfold addFile
      simp only [hr, allocate_file_eq, if_neg hne]
      exact if_neg hne

namespace CopyStart

variable (h : CopyStart img im d b n name)
include h

theorem shape : SameShape img im := by
  have hg := h.site.sound.geometry
  refine .of_frame h.frame (Set.disjoint_union_left.2 ⟨Set.disjoint_union_left.2
    ⟨disjoint_blockBytes_header hg.inodeBitmap, disjoint_freeCounts_header⟩,
    Set.disjoint_union_left.2 ⟨disjoint_blockBytes_header h.site.data.three_le, ?_⟩⟩)
  exact disjoint_inodeField_header hg h.site.one_le h.site.le (by decide)

/-- A block apart from the inode table, the inode bitmap and the block with the new entry. -/
theorem agree (hx : 3 ≤ x) (hxi : x ≠ bgInodeBitmap img) (hxb : x ≠ b)
    (htable : x < bgInodeTable img ∨ tableEnd img ≤ x * ext2BlockSize) :
    Agree img im (x * ext2BlockSize) (x * ext2BlockSize + ext2BlockSize) := by
  refine agree_blockBytes h.frame (Set.disjoint_union_right.2 ⟨Set.disjoint_union_right.2
    ⟨disjoint_blockBytes hxi, disjoint_blockBytes_freeCounts hx⟩,
    Set.disjoint_union_right.2 ⟨disjoint_blockBytes hxb, ?_⟩⟩)
  exact (disjoint_inodeField_blockBytes h.site.one_le h.site.le (by decide) htable).symm

theorem free : freeBlocks im = freeBlocks img := by
  have hg := h.site.sound.geometry
  exact freeBlocks_congr h.shape (h.agree hg.blockBitmap hg.bitmaps h.site.data.blockBitmap.symm
    hg.blockBitmap_table) hg.blocks

theorem own (off len : ℕ) (hoff : 28 ≤ off) (hlen : off + len ≤ 128) :
    SameField img im n off len := by
  have hg := h.site.sound.geometry
  obtain ⟨hn₁, hn₂⟩ := And.intro h.site.one_le h.site.le
  refine load_inodeField h.frame h.shape (Set.disjoint_union_right.2
    ⟨Set.disjoint_union_right.2 ⟨disjoint_inodeField_blockBytes hn₁ hn₂ hlen hg.inodeBitmap_table,
      disjoint_inodeField_freeCounts hg hn₁ hn₂ hlen⟩, Set.disjoint_union_right.2
    ⟨disjoint_inodeField_blockBytes hn₁ hn₂ hlen h.site.data.table, ?_⟩⟩)
  exact disjoint_inodeField hn₁ hn₁ hlen (by decide) (.inr (.inr (by omega)))

theorem freeBlock (hx : x ∈ freeBlocks img) :
    Agree img im (x * ext2BlockSize) (x * ext2BlockSize + ext2BlockSize) := by
  have hdata := h.site.sound.isData_free hx
  refine h.agree hdata.three_le hdata.inodeBitmap ?_ hdata.table
  rintro rfl
  exact h.site.not_spare (.inr (mem_freeBlocks.1 hx))

end CopyStart

/-- The blocks of a directory. -/
def dirBytes (img : Image) (d : ℕ) : Set ℕ := {a | ∃ k ∈ blockList img d, a ∈ blockBytes k}

/-- Every string that is copied ends in the image, and none reaches what the tool works with: the
places of the tables, the block bitmap, the new inode and the parent directory. -/
def StringsClear (env : Env) (img : Image) (d : ℕ) (data : List UInt8) : Prop :=
  ∀ ss, strings 12 env.stack data = some ss → ∀ p ∈ (freeBlocks img).zip ss,
    stringBytes p.1 p.2 ⊆ Set.Iio imageSize ∧
    Disjoint (stringBytes p.1 p.2) (keyBytes img (freeInode img) ∪ dirBytes img d)

/-- Directory `d` has a new entry of that name, for an inode that was free and now is a file that
reads as `data`. -/
structure CopiedFile (img img' : Image) (d n : ℕ) (name : Name) (data : List UInt8) : Prop where
  fresh : 1 ≤ n ∧ inUse img n = false
  entry : ∃ b ∈ blockList img d, ∃ pos ∈ blockEntries img' b,
    entryAt img' pos = ⟨n, ext2FtRegFile, name⟩
  reads : ReadsBack img' n data

section

variable (h : CopyStart img im d b n name) (hc : Consistent img) (hput : FilePut im im' n ss)
  (hclear : ∀ p ∈ targets (freeBlocks img) ss, Disjoint (stringBytes p.1 p.2) (dirBytes img d))
include h hput hclear

/-- Copying leaves the blocks of the parent. -/
theorem CopyStart.dirBlock (hk : k ∈ blockList img d) :
    Agree im im' (k * ext2BlockSize) (k * ext2BlockSize + ext2BlockSize) := by
  intro i hi hlt
  have hin : i ∈ blockBytes k := Set.mem_Ico.2 ⟨hi, hlt⟩
  have hdata := ((h.site.sound.dirs d h.site.dir).data k hk).1
  have hout : i ∉ fileBytes im n := by
    rw [h.shape.fileBytes_eq]
    exact Set.disjoint_left.1 (disjoint_fileBytes h.site.one_le h.site.le hdata) hin
  rw [hput.bytes i hout, h.free, lay_of_notMem]
  exact fun p hp hmem => Set.disjoint_left.1 (hclear p hp) hmem ⟨k, hk, hin⟩

/-- The new entry is there. -/
theorem CopyStart.entry : ∃ b ∈ blockList img d, ∃ pos ∈ blockEntries im' b,
    entryAt im' pos = ⟨n, ext2FtRegFile, name⟩ := by
  obtain ⟨as, q, new, bs, hadd⟩ := h.added
  have hadded := hadd.congr (h.dirBlock hput hclear h.site.block)
  refine ⟨b, h.site.block, new, ?_, hadded.entry⟩
  rw [hadded.after]
  simp

include hc

/-- It is the only one for an inode that was free. -/
theorem CopyStart.entry_unique (hm : 1 ≤ m) (hfresh : inUse img m = false)
    (hentry : ∃ b ∈ blockList img d, ∃ pos ∈ blockEntries im' b,
      entryAt im' pos = ⟨m, ext2FtRegFile, name⟩) : m = n := by
  obtain ⟨k, hk, pos, hpos, hentry⟩ := hentry
  have hdir := h.site.sound.dirs d h.site.dir
  -- an entry that was there before names an inode in use
  have hold : pos ∈ blockEntries img k → entryAt im' pos = entryAt img pos → False := by
    intro hmem hsame
    have hino : deInode img pos = m := congrArg DirEntry.inode (hsame.symm.trans hentry)
    have hlive : isLive img pos = true := by
      rw [isLive, bne_iff_ne, hino]
      omega
    have hused := hc.used pos (mem_entries.2 ⟨d, k, h.site.dir, hk, hmem, hlive⟩)
    rw [hino, hfresh] at hused
    cases hused
  by_cases hkb : k = b
  · obtain ⟨as, q, new, bs, hadd⟩ := h.added
    have hadded := hadd.congr (h.dirBlock hput hclear h.site.block)
    rw [hkb, hadded.after] at hpos
    by_cases hnew : pos = new
    · rw [hnew, hadded.entry] at hentry
      exact (congrArg DirEntry.inode hentry).symm
    · have hmem : pos ∈ as ++ q :: bs := (mem_second.1 hpos).resolve_left hnew
      exact absurd (hadded.same pos hmem) fun hsame =>
        hold (by rw [hkb, hadded.before]; exact hmem) hsame
  · have hdata := (hdir.data k hk).1
    have hag := (h.agree hdata.three_le hdata.inodeBitmap hkb hdata.table).trans
      (h.dirBlock hput hclear hk)
    obtain ⟨-, hlist, hentries, -⟩ := (hdir.blocks k hk).congr hag
    rw [hlist] at hpos
    exact absurd (hentries pos hpos) fun hsame => hold hpos hsame

end

/-- The strings stay in the image and clear of what the tool works with, and they and the rest make
the file. -/
structure Copyable (env : Env) (img : Image) (d : ℕ) (data : List UInt8) : Prop where
  clear : StringsClear env img d data
  copies : ∃ ss, strings 12 env.stack data = some ss ∧ Copies img (freeInode img) ss data

/-- What `copy` makes of an image that it begins with. -/
theorem CopyStart.copied (h : CopyStart img im d b n name) (hc : Consistent img)
    (hss : strings 12 buffer data = some ss) (hclear : ∀ p ∈ targets (freeBlocks img) ss,
      Disjoint (stringBytes p.1 p.2) (keyBytes img n ∪ dirBytes img d)) :
    ∃ im', copyBlocks n 12 im buffer data 0 = some im' ∧ FilePut im im' n ss ∧
      iSize im' n = min data.length (12 * ext2BlockSize) ∧
      (∃ k ∈ blockList img d, ∃ pos ∈ blockEntries im' k,
        entryAt im' pos = ⟨n, ext2FtRegFile, name⟩) ∧
      ∀ m, CopiedFile img im' d m name data → m = n := by
  have hshape := h.shape
  have hkey : ∀ p ∈ targets (freeBlocks img) ss,
      Disjoint (stringBytes p.1 p.2) (keyBytes img n) :=
    fun p hp => Set.disjoint_of_subset_right Set.subset_union_left (hclear p hp)
  have hdir : ∀ p ∈ targets (freeBlocks img) ss,
      Disjoint (stringBytes p.1 p.2) (dirBytes img d) :=
    fun p hp => Set.disjoint_of_subset_right Set.subset_union_right (hclear p hp)
  obtain ⟨im', hcopy, hput, hsize⟩ := copyBlocks_spec (hshape.geometry h.site.sound.geometry)
    h.site.one_le (hshape.inodes.symm ▸ h.site.le) hss
    (by rw [h.free, hshape.keyBytes_eq]; exact hkey)
  exact ⟨im', hcopy, hput, hsize, h.entry hput hdir, fun m hfile =>
    h.entry_unique hc hput hdir hfile.fresh.1 hfile.fresh.2 hfile.entry⟩

theorem CopyStart.readsBack_iff (h : CopyStart img im d b n name)
    (hss : strings 12 buffer data = some ss)
    (hblocks : blocksFor data.length ≤ (freeBlocks img).length) (hput : FilePut im im' n ss)
    (hsize : iSize im' n = min data.length (12 * ext2BlockSize)) :
    ReadsBack im' n data ↔ Copies img n ss data :=
  Ext2.readsBack_iff h.site.sound h.site.one_le h.site.le h.shape h.free h.own
    (fun _ hx => h.freeBlock hx) hss hblocks hput hsize

/-- **When `ext2_cp` makes a file that reads back as it was**, with strings that stay in the image
and clear of the rest. -/
theorem cp_readsBack_iff (h : Consistent img)
    (hchecks : cpChecks (some data) path₁ path₂ img = some (.ok (t, d, name, data)))
    (hroom : HasRoom t img d name ext2FtRegFile) (hfree : freeInode img ≠ 0)
    (hblocks : blocksFor data.length ≤ (freeBlocks img).length) :
    ((∃ o n, cp env (some data) path₁ path₂ img = some o ∧ CopiedFile img o.img d n name data) ∧
      StringsClear env img d data) ↔ Copyable env img d data := by
  obtain ⟨hinit, hd, hname⟩ := cpChecks_ok hchecks
  obtain ⟨b, im, hstart, hadd⟩ := addFile_start h hinit hd hname hfree hroom
  have hcp : cp env (some data) path₁ path₂ img =
      (copyBlocks (freeInode img) 12 im env.stack data 0).map fun img => ⟨0, "", img⟩ := by
    rw [cp, hchecks, ← hadd]
    rfl
  have htargets : ∀ ss, strings 12 env.stack data = some ss → StringsClear env img d data →
      ∀ p ∈ targets (freeBlocks img) ss,
        Disjoint (stringBytes p.1 p.2) (keyBytes img (freeInode img) ∪ dirBytes img d) := by
    intro ss hss hclear
    have hlen := length_strings hss
    rw [targets_eq_zip (by omega)]
    exact fun p hp => (hclear ss hss p hp).2
  rw [hcp]
  constructor
  · rintro ⟨⟨o, n, hrun, hfile⟩, hclear⟩
    obtain ⟨im', hcopy, rfl⟩ := Option.map_eq_some_iff.1 hrun
    have heq := hcopy
    rw [copyBlocks_eq le_rfl] at heq
    obtain ⟨ss, hss, -⟩ := Option.map_eq_some_iff.1 heq
    obtain ⟨im'', hcopy', hput, hsize, -, hunique⟩ := hstart.copied h hss (htargets ss hss hclear)
    obtain rfl : im'' = im' := Option.some.inj (hcopy'.symm.trans hcopy)
    obtain rfl := hunique n hfile
    exact ⟨hclear, ss, hss, (hstart.readsBack_iff hss hblocks hput hsize).1 hfile.reads⟩
  · rintro ⟨hclear, ss, hss, hcopies⟩
    obtain ⟨im', hcopy, hput, hsize, hentry, -⟩ := hstart.copied h hss (htargets ss hss hclear)
    refine ⟨⟨⟨0, "", im'⟩, freeInode img, by rw [hcopy]; rfl, ⟨hstart.site.one_le, ?_⟩, hentry,
      (hstart.readsBack_iff hss hblocks hput hsize).2 hcopies⟩, hclear⟩
    exact findFreeInode_fresh h.sound.geometry hfree

theorem exImage_cpChecks : cpChecks (some [104, 0, 105]) [47, 104] [47] exImage =
    some (.ok (exTables, 2, [104], [104, 0, 105])) := by decide +kernel

theorem exImage_room : HasRoom exTables exImage 2 [104] ext2FtRegFile :=
  ⟨9, by decide +kernel, 9252, by decide +kernel, by decide +kernel⟩

theorem exImage_free : freeInode exImage = 16 ∧ (freeBlocks exImage).length = 116 := by
  decide +kernel

/-- There are more free blocks than the one it takes. -/
theorem cp_readsBack_iff_h :
    ¬ ((∃ o n, cp exEnv (some [104, 0, 105]) [47, 104] [47] exImage = some o ∧
      CopiedFile exImage o.img 2 n [104] [104, 0, 105]) ∧
      StringsClear exEnv exImage 2 [104, 0, 105]) := by
  intro h
  obtain ⟨ss, -, hcopies⟩ := ((cp_readsBack_iff exImage_consistent exImage_cpChecks exImage_room
    (by rw [exImage_free.1]; decide) (by rw [exImage_free.2]; decide)).1 h).copies
  have hfull := hcopies.full (by decide)
  rw [exImage_free.2] at hfull
  exact absurd hfull (by decide)

/-- The example image with one block left. -/
def exLastBlock : Image := store exImage 3072 16 (2 ^ 128 - 1 - 2 ^ 126)

/-- There a file of one byte is copied right. -/
example : Copyable exEnv exLastBlock 2 [104] := by
  have hstrings : strings 12 exEnv.stack [104] = some [[104]] := by
    have hlast : ∀ k < 1, write exEnv.stack 0 [104] k ≠ 0 := by decide
    rw [strings_succ _ _ (List.cons_ne_nil _ _), List.take_of_length_le (by decide),
      cString_of_zero (by decide) rfl hlast]
    rfl
  have hfree : freeBlocks exLastBlock = [127] := by decide +kernel
  have hino : freeInode exLastBlock = 16 := by decide +kernel
  refine ⟨fun ss hss => ?_, [[104]], hstrings, by decide, fun _ => by rw [hfree]; rfl, ?_, ?_, ?_⟩
  · obtain rfl := Option.some.inj (hstrings.symm.trans hss)
    have hplaces : bgBlockBitmap exLastBlock = 3 ∧ inodeAddr exLastBlock 16 = 7040 ∧
        blockList exLastBlock 2 = [9] := by decide +kernel
    rw [hfree]
    simp only [List.zip_cons_cons, List.zip_nil_right, List.forall_mem_singleton]
    refine ⟨fun a ha => ?_, Set.disjoint_left.2 ?_⟩
    · have himage : imageSize = 131072 := rfl
      simp only [stringBytes, ext2BlockSize, List.length_singleton, Set.mem_Ico, Set.mem_Iio,
        himage] at *
      omega
    rintro a ha (((hin | hin) | hin) | ⟨k, hk, hin⟩)
    all_goals
      simp only [stringBytes, header, blockBytes, inodeField, hino, hplaces, ext2BlockSize,
        List.mem_singleton, List.length_singleton, Set.mem_union, Set.mem_Ico] at *
      omega
  · rw [hino]
    decide +kernel
  · rw [hino]
    decide +kernel
  · rw [hfree]
    exact ⟨fun j hj _ hlen => absurd hlen (by simp at hj ⊢; omega), trivial⟩

/-- Three bytes, with a NUL between, are copied to `/h`. They come to two blocks, and the last byte
is lost. -/
theorem cp_loses_byte : Consistent exImage ∧ freeInode exImage = 16 ∧
    (freeBlocks exImage).length = 116 ∧ HasRoom exTables exImage 2 [104] ext2FtRegFile ∧
    ∃ o, cp exEnv (some [104, 0, 105]) [47, 104] [47] exImage = some o ∧ o.code = 0 ∧
      walk o.img ext2RootIno (tokens [47, 104]) = some 16 ∧ iSize o.img 16 = 3 ∧
      fileBlocks o.img 16 = [12, 13] ∧
      Bytes.read o.img (12 * ext2BlockSize) 3 = [104, 0, 0] ∧
      ∀ n, ¬ CopiedFile exImage o.img 2 n [104] [104, 0, 105] := by
  have hrun : (cp exEnv (some [104, 0, 105]) [47, 104] [47] exImage).map (fun o =>
      ((o.code, walk o.img ext2RootIno (tokens [47, 104]), iSize o.img 16),
        (fileBlocks o.img 16, Bytes.read o.img (12 * ext2BlockSize) 3),
        (blockEntries o.img 9).all fun pos =>
          deName o.img pos != [104] || deInode o.img pos == 16)) =
      some ((0, some 16, 3), ([12, 13], [104, 0, 0]), true) := by decide +kernel
  obtain ⟨o, ho, hfacts⟩ := Option.map_eq_some_iff.1 hrun
  simp only [Prod.mk.injEq] at hfacts
  obtain ⟨⟨hcode, hwalk, hsize⟩, ⟨hblocks, hread⟩, hnames⟩ := hfacts
  refine ⟨exImage_consistent, exImage_free.1, exImage_free.2, exImage_room, o, ho, hcode, hwalk,
    hsize, hblocks, hread, fun n h => ?_⟩
  obtain ⟨b, hb, pos, hpos, hentry⟩ := h.entry
  have hlist : blockList exImage 2 = [9] := by decide +kernel
  rw [hlist, List.mem_singleton] at hb
  rw [hb] at hpos
  have hname := List.all_eq_true.1 hnames pos hpos
  rw [show deName o.img pos = [104] from congrArg DirEntry.name hentry] at hname
  obtain rfl : n = 16 := by
    rw [← show deInode o.img pos = n from congrArg DirEntry.inode hentry]
    simpa using hname
  have hcount := h.reads.blocks
  rw [hblocks] at hcount
  exact absurd hcount (by decide)

end Cscc69.Ext2
