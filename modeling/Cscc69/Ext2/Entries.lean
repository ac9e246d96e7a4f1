import Cscc69.Ext2.Regions

/-!
# The entries of a block

`create_link` cuts an entry of a block in two and writes a new entry into the second half, and the
tools remove an entry by letting the one before it take in its room. Both keep the block in order
(`BlockOk`) and the other entries as they are: `createLink_added` and `unlinkEntry_removed`.
-/

namespace Cscc69.Ext2

open Bytes Records

/-- What an entry says. -/
structure DirEntry where
  inode : ℕ
  fileType : ℕ
  name : Name
  deriving DecidableEq

def entryAt (img : Image) (pos : ℕ) : DirEntry :=
  ⟨deInode img pos, fileType img pos, deName img pos⟩

/-- The entries of a block fill it, and each has room for its header and its name. -/
structure BlockOk (img : Image) (b : ℕ) : Prop where
  tiles : BlockTiles img b
  long : ∀ pos ∈ blockEntries img b, 12 ≤ recLen img pos
  fits : ∀ pos ∈ blockEntries img b, 8 + nameLen img pos ≤ recLen img pos

variable {img img' : Image} {b pos pre q p inode parent mode len : ℕ} {name : Name} {t : Tables}
  {as bs : List ℕ} {e : DirEntry}

/-! ## Reading entries -/

theorem blockEntries_of_tiles {ps : List ℕ}
    (h : Tiles (recLen img) (b * ext2BlockSize) (b * ext2BlockSize + ext2BlockSize) ps) :
    blockEntries img b = ps := h.positions_eq (Nat.le_refl _)

theorem deInode_of_entryAt (h : entryAt img' pos = entryAt img q) :
    deInode img' pos = deInode img q := congrArg DirEntry.inode h

theorem BlockOk.of_tiles {ps : List ℕ}
    (h : Tiles (recLen img) (b * ext2BlockSize) (b * ext2BlockSize + ext2BlockSize) ps)
    (hfits : ∀ r ∈ ps, 12 ≤ recLen img r ∧ 8 + nameLen img r ≤ recLen img r) :
    BlockOk img b ∧ blockEntries img b = ps := by
  have hlist := blockEntries_of_tiles h
  refine ⟨⟨?_, ?_, ?_⟩, hlist⟩
  · rw [BlockTiles, hlist]
    exact h
  · rw [hlist]
    exact fun r hr => (hfits r hr).1
  · rw [hlist]
    exact fun r hr => (hfits r hr).2

theorem isDirOf_congr (m : ℕ)
    (hino : deInode img' (b * ext2BlockSize) = deInode img (b * ext2BlockSize))
    (hag : Agree img img' (b * ext2BlockSize + 8) (b * ext2BlockSize + 10)) :
    isDirOf img' m b = isDirOf img m b := by
  rw [isDirOf, isDirOf, hino, isDotAt, isDotAt, hag _ (by omega) (by omega),
    hag _ (by omega) (by omega)]

/-- An entry is the same when all of its bytes but those of `rec_len` are. -/
theorem entryAt_congr (h₁ : Agree img img' pos (pos + 4))
    (h₂ : Agree img img' (pos + 6) (pos + 8 + nameLen img pos)) :
    entryAt img' pos = entryAt img pos ∧ nameLen img' pos = nameLen img pos := by
  have hlen : nameLen img' pos = nameLen img pos := by
    rw [nameLen, nameLen, h₂ (pos + 6) (by omega) (by omega)]
  have hino : deInode img' pos = deInode img pos := (load_congr h₁).symm
  have htype : fileType img' pos = fileType img pos := by
    rw [fileType, fileType, h₂ (pos + 7) (by omega) (by omega)]
  have hname : deName img' pos = deName img pos := by
    rw [deName, deName, hlen]
    exact (read_congr (h₂.mono (by omega) (Nat.le_refl _))).symm
  exact ⟨by rw [entryAt, entryAt, hino, htype, hname], hlen⟩

theorem recLen_congr (h : Agree img img' (pos + 4) (pos + 6)) : recLen img' pos = recLen img pos :=
  (load_congr h).symm

theorem BlockOk.mem (h : BlockOk img b) (hpos : pos ∈ blockEntries img b) :
    b * ext2BlockSize ≤ pos ∧ pos + recLen img pos ≤ b * ext2BlockSize + ext2BlockSize :=
  ⟨h.tiles.le_of_mem hpos, h.tiles.add_le_of_mem hpos⟩

/-- Two entries of a block do not overlap. -/
theorem BlockOk.apart (h : BlockOk img b) (hp : p ∈ blockEntries img b)
    (hq : q ∈ blockEntries img b) (hne : p ≠ q) :
    p + recLen img p ≤ q ∨ q + recLen img q ≤ p := h.tiles.apart hp hq hne

/-- The block that an entry is in. -/
theorem BlockOk.div_eq (hb : BlockOk img b) (hq : q ∈ blockEntries img b) :
    q / ext2BlockSize = b := by
  have hsize : ext2BlockSize = 1024 := rfl
  have hmem := hb.mem hq
  have hlong := hb.long q hq
  rw [hsize] at hmem ⊢
  omega

/-- A block begins with an entry. -/
theorem BlockOk.first (h : BlockOk img b) :
    ∃ ps, blockEntries img b = b * ext2BlockSize :: ps := by
  have hsize : ext2BlockSize = 1024 := rfl
  have htiles := h.tiles
  unfold BlockTiles at htiles
  cases hps : blockEntries img b with
  | nil =>
    rw [hps, Tiles.nil_iff] at htiles
    omega
  | cons q ps =>
    rw [hps, Tiles.cons_iff] at htiles
    rw [htiles.1]
    exact ⟨ps, rfl⟩

/-- A block with the same bytes has the same entries. -/
theorem BlockOk.congr (h : BlockOk img b)
    (hag : Agree img img' (b * ext2BlockSize) (b * ext2BlockSize + ext2BlockSize)) :
    BlockOk img' b ∧ blockEntries img' b = blockEntries img b ∧
      (∀ pos ∈ blockEntries img b, entryAt img' pos = entryAt img pos) ∧
      ∀ m, isDirOf img' m b = isDirOf img m b := by
  have hentry : ∀ pos ∈ blockEntries img b, (entryAt img' pos = entryAt img pos ∧
      nameLen img' pos = nameLen img pos) ∧ recLen img' pos = recLen img pos := by
    intro pos hpos
    obtain ⟨hle, hend⟩ := h.mem hpos
    have hlong := h.long pos hpos
    have hfits := h.fits pos hpos
    exact ⟨entryAt_congr (hag.mono (by omega) (by omega)) (hag.mono (by omega) (by omega)),
      recLen_congr (hag.mono (by omega) (by omega))⟩
  have htiles := h.tiles.congr fun pos hpos => (hentry pos hpos).2
  have hlist : blockEntries img' b = blockEntries img b := blockEntries_of_tiles htiles
  obtain ⟨hok, -⟩ := BlockOk.of_tiles htiles fun pos hpos => by
    rw [(hentry pos hpos).2, (hentry pos hpos).1.2]
    exact ⟨h.long pos hpos, h.fits pos hpos⟩
  obtain ⟨ps, hps⟩ := h.first
  refine ⟨hok, hlist, fun pos hpos => (hentry pos hpos).1.1, fun m => ?_⟩
  have hfirst : b * ext2BlockSize ∈ blockEntries img b := by
    rw [hps]
    exact List.mem_cons_self
  have hsize : ext2BlockSize = 1024 := rfl
  exact isDirOf_congr m (deInode_of_entryAt (hentry _ hfirst).1.1)
    (hag.mono (by omega) (by omega))

/-! ## Removing an entry -/

/-- The entry at `pos` is taken out of block `b`; `pre` is the one before it. -/
structure Removed (img img' : Image) (b : ℕ) (as : List ℕ) (pre pos : ℕ) (bs : List ℕ) : Prop where
  before : blockEntries img b = as ++ pre :: pos :: bs
  after : blockEntries img' b = as ++ pre :: bs
  ok : BlockOk img' b
  same : ∀ r ∈ as ++ pre :: bs, entryAt img' r = entryAt img r
  dirOf : ∀ m, isDirOf img' m b = isDirOf img m b

/-- The bytes that removing the entry at `pos` changes. -/
def unlinkBytes (pre pos : ℕ) : Set ℕ := Set.Ico (pre + 4) (pre + 6) ∪ Set.Ico pos (pos + 4)

theorem unlinkEntry_frame (img : Image) (pre pos : ℕ) :
    Frame (unlinkBytes pre pos) img (unlinkEntry img (some pre) pos) := by
  refine Frame.store (Frame.store (.refl _ _) ?_) ?_
  · intro i hi hlt
    exact .inl (Set.mem_Ico.2 ⟨hi, by omega⟩)
  · intro i hi hlt
    exact .inr (Set.mem_Ico.2 ⟨hi, hlt⟩)

/-- A range that begins at another entry, or is part of `pre` without its `rec_len`. -/
theorem unlinkEntry_agree {a c : ℕ} (hpre : c ≤ pre + 4 ∨ pre + 6 ≤ a)
    (hpos : c ≤ pos ∨ pos + 4 ≤ a) : Agree img (unlinkEntry img (some pre) pos) a c := by
  refine (unlinkEntry_frame img pre pos).agree fun i hi hlt => ?_
  simp only [unlinkBytes, Set.mem_union, Set.mem_Ico]
  omega

theorem unlinkEntry_recLen (img : Image) {pre pos : ℕ} (hlt : pre + 6 ≤ pos)
    (hlen : recLen img pre + recLen img pos < 65536) :
    recLen (unlinkEntry img (some pre) pos) pre = recLen img pre + recLen img pos := by
  show load (store (store _ (pre + 4) 2 _) pos 4 0) (pre + 4) 2 = _
  rw [load_store_of_disjoint (.inl (by omega)), load_store]
  exact Nat.mod_eq_of_lt hlen

/-- **Removing an entry** that is not the first of its block. -/
theorem unlinkEntry_removed (h : BlockOk img b)
    (hlist : blockEntries img b = as ++ pre :: pos :: bs) :
    Removed img (unlinkEntry img (some pre) pos) b as pre pos bs ∧
      Frame (blockBytes b) img (unlinkEntry img (some pre) pos) := by
  have hsize : ext2BlockSize = 1024 := rfl
  have hpre : pre ∈ blockEntries img b := by simp [hlist]
  have hpos : pos ∈ blockEntries img b := by simp [hlist]
  have hnodup : (as ++ pre :: pos :: bs).Nodup := hlist ▸ h.tiles.nodup
  have hother : ∀ r ∈ as ++ bs, r ∈ blockEntries img b ∧ r ≠ pre ∧ r ≠ pos := by
    intro r hr
    refine ⟨?_, ?_, ?_⟩
    · rw [hlist]
      grind
    · rintro rfl
      grind
    · rintro rfl
      grind
  -- the entry before ends where the entry begins
  have htiles := h.tiles
  unfold BlockTiles at htiles
  rw [hlist] at htiles
  obtain ⟨-, -, hrest⟩ := htiles.split
  have hend : pre + recLen img pre = pos := (Tiles.cons_iff.1 hrest).1
  have hlong := h.long
  have hfits := h.fits
  obtain ⟨hpre₁, hpre₂⟩ := h.mem hpre
  obtain ⟨hpos₁, hpos₂⟩ := h.mem hpos
  have hlongpre := hlong pre hpre
  have hlongpos := hlong pos hpos
  have hrec := unlinkEntry_recLen img (show pre + 6 ≤ pos by omega) (by omega)
  have hkeep : ∀ r ∈ as ++ bs, (entryAt (unlinkEntry img (some pre) pos) r = entryAt img r ∧
      nameLen (unlinkEntry img (some pre) pos) r = nameLen img r) ∧
      recLen (unlinkEntry img (some pre) pos) r = recLen img r := by
    intro r hr
    obtain ⟨hmem, hne, hne'⟩ := hother r hr
    have hlongr := hlong r hmem
    have hfitsr := hfits r hmem
    have h₁ := h.apart hmem hpre hne
    have h₂ := h.apart hmem hpos hne'
    exact ⟨entryAt_congr (unlinkEntry_agree (by omega) (by omega))
      (unlinkEntry_agree (by omega) (by omega)),
      recLen_congr (unlinkEntry_agree (by omega) (by omega))⟩
  have hkeeppre : entryAt (unlinkEntry img (some pre) pos) pre = entryAt img pre ∧
      nameLen (unlinkEntry img (some pre) pos) pre = nameLen img pre := by
    have hfitspre := hfits pre hpre
    exact entryAt_congr (unlinkEntry_agree (by omega) (by omega))
      (unlinkEntry_agree (by omega) (by omega))
  have hcases : ∀ r ∈ as ++ pre :: bs, r = pre ∨ r ∈ as ++ bs := by
    intro r hr
    grind
  have hmerge := htiles.merge hrec fun r hr => (hkeep r hr).2
  obtain ⟨hok, hafter⟩ := BlockOk.of_tiles hmerge fun r hr => by
    rcases hcases r hr with rfl | hr
    · have hfitspre := hfits r hpre
      rw [hkeeppre.2, hrec]
      omega
    · rw [(hkeep r hr).2, (hkeep r hr).1.2]
      exact ⟨hlong r (hother r hr).1, hfits r (hother r hr).1⟩
  obtain ⟨ps, hps⟩ := h.first
  refine ⟨⟨hlist, hafter, hok, ?_, fun m => ?_⟩, ?_⟩
  · intro r hr
    rcases hcases r hr with rfl | hr
    · exact hkeeppre.1
    · exact (hkeep r hr).1.1
  · -- the first entry is not the one removed
    have hfirst : b * ext2BlockSize ∈ as ++ pre :: bs := by
      have hmem := (List.mem_cons_self : b * ext2BlockSize ∈ b * ext2BlockSize :: ps)
      have hne : b * ext2BlockSize ≠ pos := by omega
      rw [← hps, hlist] at hmem
      grind
    have hino : deInode (unlinkEntry img (some pre) pos) (b * ext2BlockSize) =
        deInode img (b * ext2BlockSize) := by
      rcases hcases _ hfirst with heq | hr
      · rw [heq]
        exact deInode_of_entryAt hkeeppre.1
      · exact deInode_of_entryAt (hkeep _ hr).1.1
    have hpre' : pre = b * ext2BlockSize ∨ b * ext2BlockSize + 12 ≤ pre := by
      rcases hcases _ hfirst with heq | hr
      · exact .inl heq.symm
      · have hmem := (hother _ hr)
        have hlongb := hlong _ hmem.1
        have hap := h.apart hmem.1 hpre hmem.2.1
        omega
    exact isDirOf_congr m hino (unlinkEntry_agree (by omega) (by omega))
  · refine (unlinkEntry_frame img pre pos).mono fun i hi => ?_
    simp only [unlinkBytes, blockBytes, Set.mem_union, Set.mem_Ico] at hi ⊢
    omega

/-- Changes elsewhere may follow. -/
theorem Removed.congr {img'' : Image} (h : Removed img img' b as pre pos bs)
    (hag : Agree img' img'' (b * ext2BlockSize) (b * ext2BlockSize + ext2BlockSize)) :
    Removed img img'' b as pre pos bs := by
  obtain ⟨hok, hlist, hentries, hdir⟩ := h.ok.congr hag
  refine ⟨h.before, hlist.trans h.after, hok, fun r hr => ?_, fun m => (hdir m).trans (h.dirOf m)⟩
  rw [hentries r (by rw [h.after]; exact hr), h.same r hr]

/-! ## Adding an entry -/

theorem roundUp_le (n : ℕ) : n + 1 ≤ roundUp n := by
  unfold roundUp
  omega

/-- What `create_link` writes at `pos`. -/
theorem putEntry_spec (img : Image) (pos : ℕ) (hname : name.length < 256) (hino : inode < 2 ^ 32)
    (hmode : mode < 256) (hlen : len < 65536) :
    Frame (Set.Ico pos (pos + 9 + name.length)) img (putEntry img pos inode len mode name) ∧
      entryAt (putEntry img pos inode len mode name) pos = ⟨inode, mode, name⟩ ∧
      recLen (putEntry img pos inode len mode name) pos = len ∧
      nameLen (putEntry img pos inode len mode name) pos = name.length := by
  let img₁ := store img (pos + 7) 1 mode
  let img₂ := write img₁ (pos + 8) (name ++ [0])
  let img₃ := store img₂ (pos + 6) 1 name.length
  let img₄ := store img₃ (pos + 4) 2 len
  let img₅ := store img₄ pos 4 inode
  change Frame _ img img₅ ∧ entryAt img₅ pos = _ ∧ recLen img₅ pos = _ ∧ nameLen img₅ pos = _
  have hframe : Frame (Set.Ico pos (pos + 9 + name.length)) img img₅ := by
    refine Frame.store (.store (.store (.write (.store (.refl _ _) ?_) ?_) ?_) ?_) ?_
    · intro i hi hlt
      exact Set.mem_Ico.2 ⟨by omega, by omega⟩
    · intro i hi hlt
      rw [List.length_append, List.length_singleton] at hlt
      exact Set.mem_Ico.2 ⟨by omega, by omega⟩
    · intro i hi hlt
      exact Set.mem_Ico.2 ⟨by omega, by omega⟩
    · intro i hi hlt
      exact Set.mem_Ico.2 ⟨by omega, by omega⟩
    · intro i hi hlt
      exact Set.mem_Ico.2 ⟨by omega, by omega⟩
  have hdeInode : deInode img₅ pos = inode := by
    rw [deInode, load_store]
    exact Nat.mod_eq_of_lt hino
  have hrecLen : recLen img₅ pos = len := by
    rw [recLen, load_store_of_disjoint (.inr (by omega)), load_store]
    exact Nat.mod_eq_of_lt hlen
  have hnameLen : nameLen img₅ pos = name.length := by
    rw [nameLen, ← load_one, load_store_of_disjoint (.inr (by omega)),
      load_store_of_disjoint (.inr (by omega)), load_store]
    exact Nat.mod_eq_of_lt hname
  have hfileType : fileType img₅ pos = mode := by
    rw [fileType, ← load_one, load_store_of_disjoint (.inr (by omega)),
      load_store_of_disjoint (.inr (by omega)), load_store_of_disjoint (.inr (by omega)),
      load_write_of_disjoint (.inl (by omega)), load_store]
    exact Nat.mod_eq_of_lt hmode
  have hdeName : deName img₅ pos = name := by
    have h₅ : Agree img₅ img₄ (pos + 8) (pos + 8 + name.length) := agree_store (.inr (by omega))
    have h₄ : Agree img₄ img₃ (pos + 8) (pos + 8 + name.length) := agree_store (.inr (by omega))
    have h₃ : Agree img₃ img₂ (pos + 8) (pos + 8 + name.length) := agree_store (.inr (by omega))
    rw [deName, hnameLen, read_congr (h₅.trans (h₄.trans h₃))]
    exact read_write img₁ (pos + 8) name [0]
  refine ⟨hframe, ?_, hrecLen, hnameLen⟩
  rw [entryAt, hdeInode, hfileType, hdeName]

/-- The name is followed by a NUL. -/
theorem putEntry_nul (img : Image) (pos inode len mode : ℕ) (name : Name) :
    putEntry img pos inode len mode name (pos + 8 + name.length) = 0 := by
  have hkeep : ∀ (m : Image) (a k v : ℕ), a + k ≤ pos + 8 →
      store m a k v (pos + 8 + name.length) = m (pos + 8 + name.length) := by
    intro m a k v hle
    unfold store
    rw [if_neg (by omega)]
  unfold putEntry
  simp only [setDeInode, setRecLen, setNameLen]
  rw [hkeep _ _ _ _ (by omega), hkeep _ _ _ _ (by omega), hkeep _ _ _ _ (by omega), strcpy, write,
    if_pos (by omega), show pos + 8 + name.length - (pos + 8) = name.length by omega]
  simp

/-- An entry at `new` is put into block `b`, after the one at `q`. -/
structure Added (img img' : Image) (b : ℕ) (as : List ℕ) (q new : ℕ) (bs : List ℕ) (e : DirEntry) :
    Prop where
  before : blockEntries img b = as ++ q :: bs
  after : blockEntries img' b = as ++ q :: new :: bs
  ok : BlockOk img' b
  entry : entryAt img' new = e
  same : ∀ r ∈ as ++ q :: bs, entryAt img' r = entryAt img r
  dirOf : ∀ m, isDirOf img' m b = isDirOf img m b

theorem Added.congr {img'' : Image} {new : ℕ} (h : Added img img' b as q new bs e)
    (hag : Agree img' img'' (b * ext2BlockSize) (b * ext2BlockSize + ext2BlockSize)) :
    Added img img'' b as q new bs e := by
  obtain ⟨hok, hlist, hentries, hdir⟩ := h.ok.congr hag
  refine ⟨h.before, hlist.trans h.after, hok, ?_, fun r hr => ?_,
    fun m => (hdir m).trans (h.dirOf m)⟩
  · rw [hentries new (by rw [h.after]; simp), h.entry]
  · rw [hentries r (by rw [h.after]; grind), h.same r hr]

/-- The change that `create_link` makes at the entry `q`. -/
def cutEntry (img : Image) (q inode mode : ℕ) (name : Name) : Image :=
  putEntry (setRecLen img q (dirSize img q)) (q + dirSize img q) inode
    (recLen img q - dirSize img q) mode name

/-- The bytes of the entry `q`, cut at `new`, that may change. -/
def cutBytes (img : Image) (q new : ℕ) : Set ℕ :=
  Set.Ico (q + 4) (q + 6) ∪ Set.Ico new (q + recLen img q)

theorem dirSize_bounds (img : Image) (q : ℕ) :
    12 ≤ dirSize img q ∧ 9 + nameLen img q ≤ dirSize img q := by
  unfold dirSize roundUp
  omega

theorem dirSize_lt (img : Image) (q : ℕ) : dirSize img q < 65536 := by
  have hname : nameLen img q < 256 := UInt8.toNat_lt _
  unfold dirSize roundUp
  omega

theorem entrySize_bound (hmode : mode ≠ ext2FtSymlink) :
    19 + name.length ≤ entrySize name mode := by
  unfold entrySize
  rw [if_neg hmode]
  exact (roundUp_le _).trans' (by omega)

/-- The entry at `q` of block `b` is cut at `new`, where the entry `e` begins. -/
structure Cut (img img' : Image) (b : ℕ) (as : List ℕ) (q new : ℕ) (bs : List ℕ) (e : DirEntry) :
    Prop where
  tiles : Tiles (recLen img') (b * ext2BlockSize) (b * ext2BlockSize + ext2BlockSize)
    (as ++ q :: new :: bs)
  frame : Frame (cutBytes img q new) img img'
  entry : entryAt img' new = e
  lens : recLen img' q = dirSize img q ∧ recLen img' new = recLen img q - dirSize img q
  same : ∀ r ∈ as ++ q :: bs, entryAt img' r = entryAt img r
  others : ∀ r ∈ as ++ bs, recLen img' r = recLen img r

theorem nameLen_of_entryAt {r : ℕ} (h : entryAt img' r = entryAt img q) :
    nameLen img' r = nameLen img q := by
  have hname := congrArg (fun e => e.name.length) h
  simpa only [entryAt, deName, length_read] using hname

/-- The entry that a cut puts at `new` keeps within its room when it has room for its name, also
for the NUL after it unless that is written over another one. -/
theorem cutEntry_frame (hroom : dirSize img q + (8 + name.length) ≤ recLen img q)
    (hnul : dirSize img q + (8 + name.length) < recLen img q ∨ img (q + recLen img q) = 0)
    (hname : name.length < 256) (hino : inode < 2 ^ 32) (hmode : mode < 256) :
    Frame (cutBytes img q (q + dirSize img q)) img (cutEntry img q inode mode name) := by
  have hlt : recLen img q < 65536 := load_lt _ _ _
  have hput := (putEntry_spec (setRecLen img q (dirSize img q)) (q + dirSize img q) hname hino
    hmode (show recLen img q - dirSize img q < 65536 by omega)).1
  intro i hi
  simp only [cutBytes, Set.mem_union, Set.mem_Ico, not_or] at hi
  have hset : setRecLen img q (dirSize img q) i = img i := by
    unfold setRecLen store
    rw [if_neg (by omega)]
  by_cases hin : i ∈ Set.Ico (q + dirSize img q) (q + dirSize img q + 9 + name.length)
  · -- the NUL of a name that fills its entry
    rw [Set.mem_Ico] at hin
    have heq : i = q + dirSize img q + 8 + name.length := by omega
    have hend : q + recLen img q = i := by omega
    rw [hend] at hnul
    rw [hnul.resolve_left (by omega), heq]
    exact putEntry_nul _ _ _ _ _ _
  · exact (hput i hin).trans hset

theorem cutEntry_recLen (hname : name.length < 256) (hino : inode < 2 ^ 32) (hmode : mode < 256) :
    recLen (cutEntry img q inode mode name) q = dirSize img q := by
  have hlt : recLen img q < 65536 := load_lt _ _ _
  obtain ⟨hdir₁, -⟩ := dirSize_bounds img q
  have hput := (putEntry_spec (setRecLen img q (dirSize img q)) (q + dirSize img q) hname hino
    hmode (show recLen img q - dirSize img q < 65536 by omega)).1
  have hload := hput.load_eq (a := q + 4) (n := 2) fun i hi hlt' => by
    rw [Set.mem_Ico]
    omega
  refine hload.trans ?_
  rw [setRecLen, load_store]
  exact Nat.mod_eq_of_lt (dirSize_lt img q)

/-- **Cutting an entry** of a block that the entries fill. -/
theorem cutEntry_cut (htiles : BlockTiles img b)
    (hfits : ∀ pos ∈ blockEntries img b, 8 + nameLen img pos ≤ recLen img pos)
    (hlist : blockEntries img b = as ++ q :: bs)
    (hroom : dirSize img q + (8 + name.length) ≤ recLen img q)
    (hnul : dirSize img q + (8 + name.length) < recLen img q ∨ img (q + recLen img q) = 0)
    (hname : name.length < 256) (hino : inode < 2 ^ 32) (hmode : mode < 256) :
    Cut img (cutEntry img q inode mode name) b as q (q + dirSize img q) bs ⟨inode, mode, name⟩ := by
  have hq : q ∈ blockEntries img b := by simp [hlist]
  have hnodup : (as ++ q :: bs).Nodup := hlist ▸ htiles.nodup
  have hother : ∀ r ∈ as ++ bs, r ∈ blockEntries img b ∧ r ≠ q := by
    intro r hr
    refine ⟨?_, ?_⟩
    · rw [hlist]
      grind
    · rintro rfl
      grind
  obtain ⟨hdir₁, hdir₂⟩ := dirSize_bounds img q
  have hlt : recLen img q < 65536 := load_lt _ _ _
  have hframe : Frame _ img (cutEntry img q inode mode name) :=
    cutEntry_frame hroom hnul hname hino hmode
  obtain ⟨-, hnew, hnewLen, -⟩ := putEntry_spec (setRecLen img q (dirSize img q))
    (q + dirSize img q) hname hino hmode (show recLen img q - dirSize img q < 65536 by omega)
  change entryAt (cutEntry img q inode mode name) _ = _ at hnew
  change recLen (cutEntry img q inode mode name) _ = _ at hnewLen
  have hag : ∀ {a c : ℕ}, (c ≤ q + 4 ∨ q + 6 ≤ a) →
      (c ≤ q + dirSize img q ∨ q + recLen img q ≤ a) →
      Agree img (cutEntry img q inode mode name) a c := by
    intro a c h₁ h₂
    refine hframe.agree fun i hi hlt' => ?_
    simp only [cutBytes, Set.mem_union, Set.mem_Ico]
    omega
  have hqLen : recLen (cutEntry img q inode mode name) q = dirSize img q :=
    cutEntry_recLen hname hino hmode
  have hkeep : ∀ r ∈ as ++ bs, entryAt (cutEntry img q inode mode name) r = entryAt img r ∧
      recLen (cutEntry img q inode mode name) r = recLen img r := by
    intro r hr
    obtain ⟨hmem, hne⟩ := hother r hr
    have hfitsr := hfits r hmem
    have hap := htiles.apart hmem hq hne
    exact ⟨(entryAt_congr (hag (by omega) (by omega)) (hag (by omega) (by omega))).1,
      recLen_congr (hag (by omega) (by omega))⟩
  have hkeepq : entryAt (cutEntry img q inode mode name) q = entryAt img q :=
    (entryAt_congr (hag (by omega) (by omega)) (hag (by omega) (by omega))).1
  unfold BlockTiles at htiles
  rw [hlist] at htiles
  refine ⟨?_, hframe, hnew, ⟨hqLen, hnewLen⟩, fun r hr => ?_, fun r hr => (hkeep r hr).2⟩
  · exact htiles.cut (by omega) (by omega) hqLen hnewLen fun r hr => (hkeep r hr).2
  · have hcases : r = q ∨ r ∈ as ++ bs := by grind
    rcases hcases with rfl | hr
    · exact hkeepq
    · exact (hkeep r hr).1

/-- A cut that leaves room for a header and the name keeps the block in order. -/
theorem Cut.added (h : BlockOk img b) (hlist : blockEntries img b = as ++ q :: bs)
    (hcut : Cut img img' b as q (q + dirSize img q) bs e)
    (hlong : dirSize img q + 12 ≤ recLen img q)
    (hroom : dirSize img q + (8 + e.name.length) ≤ recLen img q) :
    Added img img' b as q (q + dirSize img q) bs e ∧ Frame (blockBytes b) img img' := by
  have hq : q ∈ blockEntries img b := by simp [hlist]
  obtain ⟨hq₁, hq₂⟩ := h.mem hq
  obtain ⟨hdir₁, hdir₂⟩ := dirSize_bounds img q
  have hnewName : nameLen img' (q + dirSize img q) = e.name.length := by
    have hlen := congrArg (fun e => e.name.length) hcut.entry
    simpa only [entryAt, deName, length_read] using hlen
  obtain ⟨hok, hafter⟩ := BlockOk.of_tiles hcut.tiles fun r hr => by
    have hr' : r = q + dirSize img q ∨ r = q ∨ r ∈ as ++ bs := by grind
    rcases hr' with rfl | rfl | hr'
    · rw [hcut.lens.2, hnewName]
      omega
    · rw [hcut.lens.1, nameLen_of_entryAt (hcut.same r (by simp))]
      omega
    · have hmem : r ∈ blockEntries img b := by grind
      rw [hcut.others r hr', nameLen_of_entryAt (hcut.same r (by grind))]
      exact ⟨h.long r hmem, h.fits r hmem⟩
  obtain ⟨ps, hps⟩ := h.first
  refine ⟨⟨hlist, hafter, hok, hcut.entry, hcut.same, fun m => ?_⟩, hcut.frame.mono fun i hi => ?_⟩
  · -- the bytes of the first entry's name stay, whether it is the one that is cut or not
    have hfirst : b * ext2BlockSize ∈ blockEntries img b := by
      rw [hps]
      exact List.mem_cons_self
    have hapart : b * ext2BlockSize = q ∨ b * ext2BlockSize + 12 ≤ q := by
      by_cases heq : b * ext2BlockSize = q
      · exact .inl heq
      · have hlongb := h.long _ hfirst
        have hap := h.apart hfirst hq heq
        omega
    refine isDirOf_congr m (deInode_of_entryAt (hcut.same _ (hlist ▸ hfirst)))
      (hcut.frame.agree fun i hi hlt => ?_)
    simp only [cutBytes, Set.mem_union, Set.mem_Ico]
    omega
  · simp only [cutBytes, blockBytes, Set.mem_union, Set.mem_Ico] at hi ⊢
    omega

/-- Cutting an entry that is long enough keeps the block in order. -/
theorem cutEntry_added (h : BlockOk img b) (hlist : blockEntries img b = as ++ q :: bs)
    (hroom : dirSize img q + entrySize name mode ≤ recLen img q) (hname : name.length < 256)
    (hino : inode < 2 ^ 32) (hmode : mode < 256) (hmode' : mode ≠ ext2FtSymlink) :
    Added img (cutEntry img q inode mode name) b as q (q + dirSize img q) bs
      ⟨inode, mode, name⟩ ∧ Frame (blockBytes b) img (cutEntry img q inode mode name) := by
  have hentry : 19 + name.length ≤ entrySize name mode := entrySize_bound hmode'
  have hle : dirSize img q + (8 + name.length) ≤ recLen img q := by omega
  exact (cutEntry_cut h.tiles h.fits hlist hle (.inl (by omega)) hname hino hmode).added h hlist
    (by omega) hle

/-- Whether the entry at `pos` leaves room for a new one. -/
def hasRoom (img : Image) (name : Name) (mode pos : ℕ) : Bool :=
  dirSize img pos + entrySize name mode ≤ recLen img pos

theorem createLink_eq (hbase : findDirBlockPos t img parent = some (b * ext2BlockSize))
    (h : BlockTiles img b) :
    createLink t img parent inode name mode =
      some (match (blockEntries img b).find? (hasRoom img name mode) with
        | none => (false, img)
        | some q => (true, cutEntry img q inode mode name)) := by
  have hscan : scan (recLen img) atBlockEnd (hasRoom img name mode) imageSize (b * ext2BlockSize)
      (b * ext2BlockSize) = _ := scanBlock_eq (hasRoom img name mode) h
  have hsnd := findPair_snd (hasRoom img name mode) (b * ext2BlockSize) (blockEntries img b)
  have hfound : (fun pos => decide (dirSize img pos + entrySize name mode ≤ recLen img pos)) =
      hasRoom img name mode := rfl
  rw [createLink, hbase]
  simp only [hfound, hscan]
  rw [← hsnd]
  cases hpair : findPair (hasRoom img name mode) (b * ext2BlockSize) (blockEntries img b) with
  | none => rfl
  | some r =>
    have hcut : recLen (setRecLen img r.2 (dirSize img r.2)) r.2 = dirSize img r.2 := by
      rw [recLen, setRecLen, load_store]
      exact Nat.mod_eq_of_lt (dirSize_lt img r.2)
    simp only [Option.map_some, hcut, cutEntry]

/-- **What `create_link` does**: nothing, or it puts the new entry into the block. -/
theorem createLink_added (hbase : findDirBlockPos t img parent = some (b * ext2BlockSize))
    (h : BlockOk img b) (hname : name.length < 256) (hino : inode < 2 ^ 32) (hmode : mode < 256)
    (hmode' : mode ≠ ext2FtSymlink) {r : Bool × Image}
    (hr : createLink t img parent inode name mode = some r) :
    r = (false, img) ∨ r.1 = true ∧ Frame (blockBytes b) img r.2 ∧ ∃ as q bs,
      Added img r.2 b as q (q + dirSize img q) bs ⟨inode, mode, name⟩ := by
  rw [createLink_eq hbase h.tiles] at hr
  have hr := Option.some.inj hr
  cases hfind : (blockEntries img b).find? (hasRoom img name mode) with
  | none =>
    rw [hfind] at hr
    exact .inl hr.symm
  | some q =>
    rw [hfind] at hr
    obtain ⟨as, bs, hlist⟩ := List.append_of_mem (List.mem_of_find?_eq_some hfind)
    have hroom : dirSize img q + entrySize name mode ≤ recLen img q := by
      simpa [hasRoom] using List.find?_some hfind
    rw [← hr]
    obtain ⟨hadded, hframe⟩ := cutEntry_added h hlist hroom hname hino hmode hmode'
    exact .inr ⟨rfl, hframe, as, q, bs, hadded⟩

end Cscc69.Ext2
