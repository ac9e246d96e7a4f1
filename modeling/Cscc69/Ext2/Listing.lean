import Cscc69.Ext2.HardLinks

/-!
# ext2_ls

`ls_block` goes through as many block words of an inode as `i_blocks` says. But `i_blocks` counts
sectors of 512 bytes, two for each block. So after the blocks of a directory `ls_block` comes to the
words behind them, of which the first is 0, and goes through the boot block as if it were one of the
directory's (`lsBlock_reads_zero`).

Whether there is a directory at the path is decided by the first entry with the name, wherever it
is. If it is that of a file, then `ext2_ls` prints the name; if not, then `ls_block` goes through
what `traverse` has found.

`lists_iff` says when what is printed is right all the same.
-/

namespace Cscc69.Ext2

open Bytes Records

/-! ## The tool -/

/-- What is printed, and the blocks that `ls_block` goes through. -/
structure Listing where
  code : ℕ
  stdout : List Name
  stderr : String
  blocks : List ℕ

/-- `printf("%.*s\n", dir->name_len, dir->name)` -/
def printName (img : Image) (pos : ℕ) : Name := (deName img pos).takeWhile (· ≠ 0)

/-- What `ls_block` prints for an entry. -/
def printEntry (img : Image) (aflag : Bool) (pos : ℕ) : List Name :=
  if IsFileEntry img pos ∨ fileType img pos = ext2FtDir then
    if strncmpEq img [dot] (pos + 8) 1 = false ∨ aflag then [printName img pos] else []
  else []

/-- The entry is in the mapped memory; a read behind it crashes. -/
def Mapped (img : Image) (pos : ℕ) : Prop := pos + 8 + nameLen img pos ≤ imageSize

instance (img : Image) (pos : ℕ) : Decidable (Mapped img pos) := by
  unfold Mapped; infer_instance

/-- The loop over the entries of a block. -/
def lsEntries (img : Image) (aflag : Bool) : ℕ → ℕ → Option (List Name)
  | 0, _ => none
  | fuel + 1, pos =>
    if Mapped img pos then
      let curLen := recLen img pos
      let printed := printEntry img aflag pos
      if atBlockEnd (pos + curLen) then some printed
      else (lsEntries img aflag fuel (pos + curLen)).map (printed ++ ·)
    else none

/-- One round of the loop over the block words of an inode. -/
def lsIndex (img : Image) (aflag : Bool) (inode index : ℕ) : Option (List Name) :=
  if inodeAddr img inode + 40 + 4 * (index + 1) ≤ imageSize then
    lsEntries img aflag imageSize (iBlock img inode index * ext2BlockSize)
  else none

/-- `ls_block`: the names and the blocks. -/
def lsBlock (img : Image) (inode : ℕ) (aflag : Bool) : Option (List Name × List ℕ) :=
  ((List.range (iBlocks img inode)).mapM (lsIndex img aflag inode)).map fun printed =>
    (printed.flatten, (List.range (iBlocks img inode)).map (iBlock img inode))

/-- `ext2_ls`, when an inode has been found. -/
def lsInode (t : Tables) (img : Image) (fileInode : ℕ) (filename : Name) (aflag : Bool) :
    Option Listing :=
  match findDirEntry t img fileInode filename with
  | some (some dirFile) =>
    if IsFileEntry img dirFile then some ⟨0, [printName img dirFile], "", []⟩
    else (lsBlock img fileInode aflag).map fun (printed, blocks) => ⟨0, printed, "", blocks⟩
  | _ => none

def ls (aflag : Bool) (path : Name) (img : Image) : Option Listing :=
  match arrNames path with
  | none => none
  | some names =>
    match init img with
    | none => none
    | some t =>
      if path = [slash] then
        (lsBlock img ext2RootIno aflag).map fun (printed, blocks) => ⟨0, printed, "", blocks⟩
      else
        let filename := names.getLastD []
        match tokens path with
        | [] => some ⟨enoent, [], dneErr, []⟩
        | cur :: rest =>
          match traverse t img filename ext2RootIno cur rest with
          | none => none
          | some 0 => some ⟨enoent, [], dneErr, []⟩
          | some fileInode => lsInode t img fileInode filename aflag

/-! ## What it should print -/

variable {img : Image} {n x pos q : ℕ} {aflag : Bool} {path name : Name} {t : Tables}

/-- The names of the used entries, without the hidden ones unless `-a` is given. -/
def shown (img : Image) (aflag : Bool) (n : ℕ) : List Name :=
  (((dirEntries img n).filter (isLive img)).map (deName img)).filter fun name =>
    aflag || name.head? != some dot

/-- What is printed is right for a path that leads to inode `n`. -/
structure Lists (img : Image) (aflag : Bool) (path : Name) (n : ℕ) (out : Listing) : Prop where
  directory : isDirectory img n = true →
    out.stdout = shown img aflag n ∧ ∀ b ∈ out.blocks, b ∈ blockList img n
  file : IsFile img n → out.stdout = [basename path]

/-- `i_blocks` counts sectors. -/
def Sectors (img : Image) : Prop :=
  ∀ n, isDirectory img n = true → iBlocks img n = 2 * (blockList img n).length

/-! ## The loop over the entries -/

/-- The entries from `pos` on, each where the one before ends, up to the end of a block. -/
inductive Chain (img : Image) : ℕ → List ℕ → Prop
  | last {pos : ℕ} : Mapped img pos → atBlockEnd (pos + recLen img pos) = true → Chain img pos [pos]
  | next {pos : ℕ} {ps : List ℕ} : Mapped img pos → atBlockEnd (pos + recLen img pos) = false →
      Chain img (pos + recLen img pos) ps → Chain img pos (pos :: ps)

/-- The blocks that the first words of an inode name, read as blocks of entries, hold these names to
be shown. -/
def Shows (img : Image) (aflag : Bool) (inode : ℕ) (names : List Name) : Prop :=
  ∃ pss : List (List ℕ), List.Forall₂ (fun index ps =>
      inodeAddr img inode + 40 + 4 * (index + 1) ≤ imageSize ∧
        Chain img (iBlock img inode index * ext2BlockSize) ps)
      (List.range (iBlocks img inode)) pss ∧
    names = (pss.map fun ps => ps.flatMap (printEntry img aflag)).flatten

theorem Chain.recLen_pos {ps : List ℕ} (h : Chain img pos ps) (hend : atBlockEnd pos = false) :
    0 < recLen img pos := by
  induction h with
  | last _ hlast =>
    rw [Nat.pos_iff_ne_zero]
    intro hzero
    rw [hzero, Nat.add_zero, hend] at hlast
    cases hlast
  | next _ hnext _ ih =>
    rw [Nat.pos_iff_ne_zero]
    intro hzero
    rw [hzero, Nat.add_zero] at ih
    exact absurd (ih hend) (by rw [hzero]; exact lt_irrefl 0)

theorem Chain.length_le {ps : List ℕ} (h : Chain img pos ps) : pos + ps.length ≤ imageSize := by
  induction h with
  | last hmapped _ =>
    unfold Mapped at hmapped
    rw [List.length_singleton]
    omega
  | @next pos ps hmapped hnext hchain ih =>
    have hpos : 0 < recLen img pos := by
      by_contra hzero
      have hstay : recLen img pos = 0 := Nat.eq_zero_of_not_pos hzero
      have hend : atBlockEnd pos = false := by rwa [hstay, Nat.add_zero] at hnext
      exact hzero (Chain.recLen_pos (.next hmapped hnext hchain) hend)
    rw [List.length_cons]
    omega

theorem lsEntries_iff {fuel : ℕ} {names : List Name} : lsEntries img aflag fuel pos = some names ↔
    ∃ ps, Chain img pos ps ∧ ps.length ≤ fuel ∧ names = ps.flatMap (printEntry img aflag) := by
  induction fuel generalizing pos names with
  | zero =>
    constructor
    · intro h
      cases h
    · rintro ⟨ps, hchain, hlength, -⟩
      cases hchain <;> cases hlength
  | succ fuel ih =>
    unfold lsEntries
    constructor
    · intro h
      split at h
      · rename_i hmapped
        dsimp only at h
        split at h
        · rename_i hend
          refine ⟨[pos], .last hmapped hend, ?_, ?_⟩
          · rw [List.length_singleton]
            exact Nat.succ_le_succ (Nat.zero_le fuel)
          · rw [List.flatMap_singleton]
            exact (Option.some.inj h).symm
        · rename_i hend
          obtain ⟨names', hrest, rfl⟩ := Option.map_eq_some_iff.1 h
          obtain ⟨ps, hchain, hlength, rfl⟩ := ih.1 hrest
          refine ⟨pos :: ps, .next hmapped (Bool.not_eq_true _ ▸ hend) hchain, ?_, ?_⟩
          · exact Nat.succ_le_succ hlength
          · rw [List.flatMap_cons]
      · cases h
    · rintro ⟨ps, hchain, hlength, rfl⟩
      cases hchain with
      | last hmapped hend =>
        rw [if_pos hmapped]
        dsimp only
        rw [if_pos hend, List.flatMap_singleton]
      | next hmapped hend hchain =>
        rw [if_pos hmapped]
        dsimp only
        rw [hend, if_neg Bool.false_ne_true,
          ih.2 ⟨_, hchain, Nat.le_of_succ_le_succ hlength, rfl⟩, List.flatMap_cons]
        rfl

theorem mapM_eq_some {α β : Type*} {f : α → Option β} {as : List α} {bs : List β} :
    as.mapM f = some bs ↔ List.Forall₂ (fun a b => f a = some b) as bs := by
  induction as generalizing bs with
  | nil => simp [eq_comm]
  | cons a as ih =>
    rw [List.mapM_cons, List.forall₂_cons_left_iff]
    simp only [Option.bind_eq_bind, Option.bind_eq_some_iff, Option.pure_def, Option.some.injEq, ih]
    constructor
    · rintro ⟨b, hb, bs', hbs', rfl⟩
      exact ⟨b, bs', hb, hbs', rfl⟩
    · rintro ⟨b, bs', hb, hbs', rfl⟩
      exact ⟨b, hb, bs', hbs', rfl⟩

theorem lsIndex_iff {inode index : ℕ} {names : List Name} :
    lsIndex img aflag inode index = some names ↔
      ∃ ps, (inodeAddr img inode + 40 + 4 * (index + 1) ≤ imageSize ∧
        Chain img (iBlock img inode index * ext2BlockSize) ps) ∧
        names = ps.flatMap (printEntry img aflag) := by
  unfold lsIndex
  split
  · rename_i hmapped
    rw [lsEntries_iff]
    constructor
    · rintro ⟨ps, hchain, -, rfl⟩
      exact ⟨ps, ⟨hmapped, hchain⟩, rfl⟩
    · rintro ⟨ps, ⟨-, hchain⟩, rfl⟩
      exact ⟨ps, hchain, le_trans (Nat.le_add_left _ _) hchain.length_le, rfl⟩
  · rename_i hmapped
    constructor
    · intro h
      cases h
    · rintro ⟨ps, ⟨hmapped', -⟩, -⟩
      exact absurd hmapped' hmapped

theorem forall₂_exists_eq {α β γ : Type*} {r : α → γ → Prop} {g : γ → β} {as : List α}
    {bs : List β} : List.Forall₂ (fun a b => ∃ c, r a c ∧ b = g c) as bs ↔
      ∃ cs, List.Forall₂ r as cs ∧ bs = cs.map g := by
  induction as generalizing bs with
  | nil => simp
  | cons a as ih =>
    simp only [List.forall₂_cons_left_iff, ih]
    constructor
    · rintro ⟨b, bs', ⟨c, hc, rfl⟩, ⟨cs, hcs, rfl⟩, rfl⟩
      exact ⟨c :: cs, ⟨c, cs, hc, hcs, rfl⟩, rfl⟩
    · rintro ⟨_, ⟨c, cs, hc, hcs, rfl⟩, rfl⟩
      exact ⟨g c, cs.map g, ⟨c, hc, rfl⟩, ⟨cs, hcs, rfl⟩, rfl⟩

/-- **What `ls_block` prints.** -/
theorem lsBlock_iff {names : List Name} {blocks : List ℕ} :
    lsBlock img x aflag = some (names, blocks) ↔ Shows img aflag x names ∧
      blocks = (List.range (iBlocks img x)).map (iBlock img x) := by
  unfold lsBlock Shows
  rw [Option.map_eq_some_iff]
  simp only [mapM_eq_some, lsIndex_iff, Prod.mk.injEq, forall₂_exists_eq]
  constructor
  · rintro ⟨_, ⟨pss, hpss, rfl⟩, rfl, rfl⟩
    exact ⟨⟨pss, hpss, rfl⟩, rfl⟩
  · rintro ⟨⟨pss, hpss, rfl⟩, rfl⟩
    exact ⟨_, ⟨pss, hpss, rfl⟩, rfl, rfl⟩

/-- Behind the words before the first zero is a zero. -/
theorem takeWhile_length_eq_zero {f : ℕ → ℕ} {c : ℕ} (h : ∃ k ≤ c, f k = 0) :
    f (((List.range c).map f).takeWhile (· ≠ 0)).length = 0 := by
  induction c generalizing f with
  | zero =>
    obtain ⟨k, hk, hzero⟩ := h
    rwa [Nat.le_zero.1 hk] at hzero
  | succ c ih =>
    rw [List.range_succ_eq_map, List.map_cons, List.map_map, List.takeWhile_cons]
    split
    · rename_i hne
      refine ih (f := f ∘ Nat.succ) ?_
      obtain ⟨_ | k, hk, hzero⟩ := h
      · exact absurd hzero (by simpa using hne)
      · exact ⟨k, Nat.le_of_succ_le_succ hk, hzero⟩
    · rename_i hzero
      simpa using hzero

/-- **`ls_block` goes through block 0** after the blocks of a directory. -/
theorem lsBlock_reads_zero (hwf : Intact img) (hsectors : Sectors img)
    (hx : isDirectory img x = true) {names : List Name} {blocks : List ℕ}
    (h : lsBlock img x aflag = some (names, blocks)) : 0 ∈ blocks := by
  obtain ⟨-, rfl⟩ := lsBlock_iff.1 h
  obtain ⟨b, bs, hlist, -⟩ := (hwf.wellFormed.dirOk x hx).dot
  rw [List.mem_map]
  refine ⟨(blockList img x).length, ?_, takeWhile_length_eq_zero (hwf.wellFormed.dirOk x hx).ends⟩
  rw [List.mem_range, hsectors x hx, hlist, List.length_cons]
  omega

theorem zero_notMem_blockList : 0 ∉ blockList img n := by
  intro h
  simpa using List.mem_takeWhile_imp h

/-! ## The paths -/

/-- The components have no byte that the path does not have. -/
theorem mem_of_mem_tokens {c : UInt8} {w : Name} (hw : w ∈ tokens path) (hc : c ∈ w) :
    c ∈ path := by
  have hsplit : ∀ w ∈ splitSlash path, c ∈ w → c ∈ path := by
    clear hw hc
    induction path with
    | nil => simp [splitSlash]
    | cons d path ih =>
      intro w hw hc
      by_cases hd : d = slash
      · rw [hd, splitSlash_slash] at hw
        rcases List.mem_cons.1 hw with rfl | hw
        · cases hc
        · exact List.mem_cons_of_mem d (ih w hw hc)
      · obtain ⟨w', ws, hws, hcons⟩ := splitSlash_cons hd path
        rw [hws] at ih
        rw [hcons] at hw
        rcases List.mem_cons.1 hw with rfl | hw
        · rcases List.mem_cons.1 hc with rfl | hc
          · exact List.mem_cons_self
          · exact List.mem_cons_of_mem d (ih w' List.mem_cons_self hc)
        · exact List.mem_cons_of_mem d (ih w (List.mem_cons_of_mem w' hw) hc)
  exact hsplit w (List.mem_of_mem_filter hw) hc

/-! ## When what is printed is right -/

/-- The first entry of the name, in the order in which `init` lists the directories. -/
def firstOf (img : Image) (name : Name) : Option ℕ :=
  ((listedDirs img).flatMap (dirEntries img)).find? fun q => deName img q == name

/-- Where `traverse` gets to, 0 if there is nothing. -/
def reached (img : Image) (path : Name) : ℕ :=
  if tokens path = [] then 0 else arrival img ext2RootIno (cutPath path)

/-- For a path to a directory: what has to be printed is nothing, and nothing is found; or it is the
name of the directory itself, and the first entry of that name is a file's. -/
def ShortList (img : Image) (aflag : Bool) (path : Name) (n : ℕ) : Prop :=
  path ≠ [slash] ∧
    (reached img path = 0 ∧ shown img aflag n = [] ∨
      reached img path ≠ 0 ∧ (∃ q, firstOf img (basename path) = some q ∧ IsFileEntry img q) ∧
        shown img aflag n = [basename path])

/-- For a path to a file: something is found, and the first entry of the name is a file's, or else
the blocks of what is found show just the name. -/
def FileNamed (img : Image) (aflag : Bool) (path : Name) : Prop :=
  reached img path ≠ 0 ∧ ∃ q, firstOf img (basename path) = some q ∧
    (IsFileEntry img q ∨ Shows img aflag (reached img path) [basename path])

/-- The condition under which the right thing is printed. -/
structure ListsWhen (img : Image) (aflag : Bool) (path : Name) (n : ℕ) : Prop where
  init : (init img).isSome = true
  names : ∀ w ∈ tokens path, w.length < 255
  directory : isDirectory img n = true → ShortList img aflag path n
  file : IsFile img n → FileNamed img aflag path

theorem IsFile.not_directory (h : IsFile img n) : isDirectory img n = false := by
  rw [Bool.eq_false_iff]
  intro hdir
  rw [isDirectory, Bool.and_eq_true, beq_iff_eq] at hdir
  unfold IsFile at h
  rw [hdir.2] at h
  exact absurd h (by decide)

/-- What is printed for the entry of a file. -/
theorem printName_of_named (hnul : 0 ∉ path) (hpath : tokens path ≠ [])
    (hname : deName img q = basename path) : printName img q = basename path := by
  rw [printName, hname, List.takeWhile_eq_self_iff]
  intro c hc
  rw [decide_eq_true_eq]
  rintro rfl
  exact hnul (mem_of_mem_tokens (basename_mem hpath) hc)

theorem lsInode_eq (hwf : Intact img) (hinit : init img = some t) (hnul : 0 ∉ path)
    (hpath : tokens path ≠ []) (hfirst : firstOf img (basename path) = some q) :
    lsInode t img x (basename path) aflag =
      if IsFileEntry img q then some ⟨0, [basename path], "", []⟩
      else (lsBlock img x aflag).map fun (printed, blocks) => ⟨0, printed, "", blocks⟩ := by
  have hname : deName img q = basename path := by simpa using List.find?_some hfirst
  unfold lsInode
  rw [hwf.findDirEntry_eq hinit, ← firstOf, hfirst]
  dsimp only
  rw [printName_of_named hnul hpath hname]

theorem lsInode_none (hwf : Intact img) (hinit : init img = some t)
    (hfirst : firstOf img name = none) : lsInode t img x name aflag = none := by
  unfold lsInode
  rw [hwf.findDirEntry_eq hinit, ← firstOf, hfirst]

/-- What `ext2_ls` does on a path other than `/`. -/
theorem ls_eq (hwf : Intact img) (hinit : init img = some t)
    (hnames : ∀ w ∈ tokens path, w.length < 255) (hslash : path ≠ [slash]) :
    ls aflag path img = if reached img path = 0 then some ⟨enoent, [], dneErr, []⟩
      else lsInode t img (reached img path) (basename path) aflag := by
  have harr : arrNames path = some (tokens path) := if_pos (by simpa using hnames)
  unfold ls
  rw [harr]
  dsimp only
  rw [hinit]
  dsimp only
  rw [if_neg hslash]
  cases htokens : tokens path with
  | nil =>
    have hreached : reached img path = 0 := if_pos htokens
    rw [hreached, if_pos rfl]
  | cons cur rest =>
    have hpath : tokens path ≠ [] := by simp [htokens]
    have htraverse := traversePath_eq hwf.wellFormed hinit hpath
    have hreached : reached img path = arrival img ext2RootIno (cutPath path) := if_neg hpath
    rw [← hreached, htokens] at htraverse
    rw [← htokens, ← basename_eq hpath, htokens]
    change traverse t img (basename path) ext2RootIno cur rest = _ at htraverse
    dsimp only
    rw [htraverse]
    split
    · rename_i heq
      cases heq
    · rename_i heq
      rw [if_pos (Option.some.inj heq)]
    · rename_i hne heq
      obtain rfl := Option.some.inj heq
      rw [if_neg (fun hzero => hne (by rw [hzero]))]

theorem ls_root (hinit : init img = some t) : ls aflag [slash] img =
    (lsBlock img ext2RootIno aflag).map fun (printed, blocks) => ⟨0, printed, "", blocks⟩ := by
  unfold ls
  have harr : arrNames [slash] = some [] := rfl
  rw [harr]
  dsimp only
  rw [hinit]
  dsimp only
  rw [if_pos rfl]

/-- On the way to a directory there are only directories. -/
theorem reached_isDirectory (hwalk : walk img ext2RootIno (tokens path) = some n)
    (hn : isDirectory img n = true) (hne : reached img path ≠ 0) :
    isDirectory img (reached img path) = true := by
  unfold reached at hne ⊢
  split
  · rename_i hnil
    rw [if_pos hnil] at hne
    exact absurd rfl hne
  · rename_i hpath
    rw [if_neg hpath] at hne
    unfold arrival at hne ⊢
    split
    · rename_i hobs
      rw [if_pos hobs] at hne
      exact absurd rfl hne
    · rename_i hobs
      rw [if_neg hobs] at hne
      obtain ⟨rest, hrest⟩ := cutAt_append (basename path) (tokens path)
      rw [hrest, walk_append] at hwalk
      obtain ⟨m, hm, hwalk⟩ := Option.bind_eq_some_iff.1 hwalk
      rw [cutPath, hm, Option.getD_some]
      cases rest with
      | nil =>
        obtain rfl := Option.some.inj hwalk
        exact hn
      | cons c cs => exact walk_isDirectory hwalk

/-- A run that lists the blocks of a directory is wrong. -/
theorem lsBlock_not_lists (hwf : Intact img) (hsectors : Sectors img)
    (hx : isDirectory img x = true) (hn : isDirectory img n = true) {out : Listing}
    (hrun : (lsBlock img x aflag).map (fun (printed, blocks) => Listing.mk 0 printed "" blocks) =
      some out) : ¬ Lists img aflag path n out := by
  intro h
  obtain ⟨⟨names, blocks⟩, hblock, rfl⟩ := Option.map_eq_some_iff.1 hrun
  exact zero_notMem_blockList ((h.directory hn).2 0 (lsBlock_reads_zero hwf hsectors hx hblock))

/-- A path to a file has components, and is not `/`. -/
theorem IsFile.tokens_ne (hwf : Intact img) (h : IsFile img n)
    (hwalk : walk img ext2RootIno (tokens path) = some n) : tokens path ≠ [] := by
  intro hnil
  rw [hnil] at hwalk
  obtain rfl := Option.some.inj hwalk
  have hno := h.not_directory
  rw [hwf.wellFormed.root] at hno
  cases hno

theorem IsFile.ne_slash (hwf : Intact img) (h : IsFile img n)
    (hwalk : walk img ext2RootIno (tokens path) = some n) : path ≠ [slash] := by
  rintro rfl
  exact h.tokens_ne hwf hwalk rfl

/-- A run that prints something has filled in its arrays. -/
theorem ls_starts {out : Listing} (hrun : ls aflag path img = some out) :
    (∃ t, init img = some t) ∧ ∀ w ∈ tokens path, w.length < 255 := by
  unfold ls at hrun
  split at hrun
  · cases hrun
  · rename_i names harr
    unfold arrNames at harr
    split at harr
    · rename_i hall
      refine ⟨?_, by simpa using hall⟩
      split at hrun
      · cases hrun
      · rename_i t hinit
        exact ⟨t, hinit⟩
    · cases harr

section

variable {out : Listing} (hwf : Intact img) (hinit : init img = some t) (hnul : 0 ∉ path)
  (hnames : ∀ w ∈ tokens path, w.length < 255)
  (hwalk : walk img ext2RootIno (tokens path) = some n)
include hwf hinit hnul hnames hwalk

theorem shortList_of_lists (hsectors : Sectors img) (hn : isDirectory img n = true)
    (hrun : ls aflag path img = some out) (hlists : Lists img aflag path n out) :
    ShortList img aflag path n := by
  have hslash : path ≠ [slash] := by
    rintro rfl
    rw [ls_root hinit] at hrun
    exact lsBlock_not_lists hwf hsectors hwf.wellFormed.root hn hrun hlists
  refine ⟨hslash, ?_⟩
  rw [ls_eq hwf hinit hnames hslash] at hrun
  split at hrun
  · rename_i hzero
    obtain rfl := Option.some.inj hrun
    exact .inl ⟨hzero, (hlists.directory hn).1.symm⟩
  · rename_i hne
    have hpath : tokens path ≠ [] := fun hnil => hne (if_pos hnil)
    cases hfirst : firstOf img (basename path) with
    | none =>
      rw [lsInode_none hwf hinit hfirst] at hrun
      cases hrun
    | some q =>
      rw [lsInode_eq hwf hinit hnul hpath hfirst] at hrun
      split at hrun
      · rename_i hq
        obtain rfl := Option.some.inj hrun
        exact .inr ⟨hne, ⟨q, rfl, hq⟩, (hlists.directory hn).1.symm⟩
      · have hx := reached_isDirectory hwalk hn hne
        exact absurd hlists (lsBlock_not_lists hwf hsectors hx hn hrun)

theorem fileNamed_of_lists (hfile : IsFile img n) (hrun : ls aflag path img = some out)
    (hlists : Lists img aflag path n out) : FileNamed img aflag path := by
  rw [ls_eq hwf hinit hnames (hfile.ne_slash hwf hwalk)] at hrun
  split at hrun
  · obtain rfl := Option.some.inj hrun
    exact absurd (hlists.file hfile) (by simp)
  · rename_i hne
    cases hfirst : firstOf img (basename path) with
    | none =>
      rw [lsInode_none hwf hinit hfirst] at hrun
      cases hrun
    | some q =>
      refine ⟨hne, q, hfirst, ?_⟩
      rw [lsInode_eq hwf hinit hnul (hfile.tokens_ne hwf hwalk) hfirst] at hrun
      split at hrun
      · rename_i hq
        exact .inl hq
      · obtain ⟨⟨names, blocks⟩, hblock, rfl⟩ := Option.map_eq_some_iff.1 hrun
        have hprinted : names = [basename path] := hlists.file hfile
        rw [← hprinted]
        exact .inr (lsBlock_iff.1 hblock).1

omit hwalk in
theorem lists_of_shortList (hn : isDirectory img n = true) (h : ShortList img aflag path n) :
    ∃ out, ls aflag path img = some out ∧ Lists img aflag path n out := by
  obtain ⟨hslash, hcase⟩ := h
  have hno : ¬ IsFile img n := fun hfile => by
    rw [hfile.not_directory] at hn
    cases hn
  rw [ls_eq hwf hinit hnames hslash]
  rcases hcase with ⟨hzero, hshown⟩ | ⟨hne, ⟨q, hfirst, hq⟩, hshown⟩
  · rw [if_pos hzero]
    exact ⟨_, rfl, fun _ => ⟨hshown.symm, by simp⟩, fun hfile => absurd hfile hno⟩
  · have hpath : tokens path ≠ [] := fun hnil => hne (if_pos hnil)
    rw [if_neg hne, lsInode_eq hwf hinit hnul hpath hfirst, if_pos hq]
    exact ⟨_, rfl, fun _ => ⟨hshown.symm, by simp⟩, fun _ => rfl⟩

theorem lists_of_fileNamed (hfile : IsFile img n) (h : FileNamed img aflag path) :
    ∃ out, ls aflag path img = some out ∧ Lists img aflag path n out := by
  obtain ⟨hne, q, hfirst, hq⟩ := h
  have hno : ¬ isDirectory img n = true := by
    rw [hfile.not_directory]
    exact Bool.false_ne_true
  rw [ls_eq hwf hinit hnames (hfile.ne_slash hwf hwalk), if_neg hne,
    lsInode_eq hwf hinit hnul (hfile.tokens_ne hwf hwalk) hfirst]
  split
  · exact ⟨_, rfl, fun hn => absurd hn hno, fun _ => rfl⟩
  · rename_i hnot
    rw [lsBlock_iff.2 ⟨hq.resolve_left hnot, rfl⟩]
    exact ⟨_, rfl, fun hn => absurd hn hno, fun _ => rfl⟩

end

/-- **When `ext2_ls` prints the right thing.** -/
theorem lists_iff (hwf : Intact img) (hsectors : Sectors img) (hnul : 0 ∉ path)
    (hwalk : walk img ext2RootIno (tokens path) = some n)
    (htype : isDirectory img n = true ∨ IsFile img n) (aflag : Bool) :
    (∃ out, ls aflag path img = some out ∧ Lists img aflag path n out) ↔
      ListsWhen img aflag path n := by
  constructor
  · rintro ⟨out, hrun, hlists⟩
    obtain ⟨⟨t, hinit⟩, hnames⟩ := ls_starts hrun
    refine ⟨by rw [hinit]; rfl, hnames, fun hn => ?_, fun hfile => ?_⟩
    · exact shortList_of_lists hwf hinit hnul hnames hwalk hsectors hn hrun hlists
    · exact fileNamed_of_lists hwf hinit hnul hnames hwalk hfile hrun hlists
  · intro h
    obtain ⟨t, hinit⟩ := Option.isSome_iff_exists.1 h.init
    rcases htype with hn | hfile
    · exact lists_of_shortList hwf hinit hnul h.names hn (h.directory hn)
    · exact lists_of_fileNamed hwf hinit hnul h.names hwalk hfile (h.file hfile)

/-! ## An example -/

/-- The example image, where the directories have two sectors. -/
def exSectors : Image := setIBlocks (setIBlocks (setIBlocks exImage 2 2) 12 2) 13 2

theorem exSectors_isDirectory (hn : isDirectory exSectors n = true) : n ∈ [2, 12, 13] := by
  have hcount : sInodesCount exSectors = 32 := by decide +kernel
  have hlt : n < 33 := by
    simp only [isDirectory, inUse, Bool.and_eq_true, decide_eq_true_eq] at hn
    omega
  have hall : ∀ n < 33, isDirectory exSectors n = true → n ∈ [2, 12, 13] := by decide +kernel
  exact hall n hlt hn

theorem exSectors_sectors : Sectors exSectors := by
  have hall : ∀ n ∈ [2, 12, 13], iBlocks exSectors n = 2 * (blockList exSectors n).length := by
    decide +kernel
  exact fun n hn => hall n (exSectors_isDirectory hn)

theorem exSectors_intact : Intact exSectors := by
  have hdirs : ∀ n ∈ [2, 12, 13], iBlock exSectors n 1 = 0 ∧ ∃ b ∈ [9, 10, 11],
      blockList exSectors n = [b] ∧ deInode exSectors (b * ext2BlockSize) = n := by decide +kernel
  have hblocks : ∀ b ∈ [9, 10, 11], BlockTiles exSectors b ∧
      (∀ pos ∈ blockEntries exSectors b,
        12 ≤ recLen exSectors pos ∧ 8 + nameLen exSectors pos ≤ recLen exSectors pos) ∧
      (InImage b ∧ 3 ≤ b ∧ b ≠ bgBlockBitmap exSectors ∧ b ≠ bgInodeBitmap exSectors ∧
        tableEnd exSectors ≤ b * ext2BlockSize) ∧
      deName exSectors (b * ext2BlockSize) = [dot] ∧
      isDotAt exSectors (b * ext2BlockSize + 8) = true := by decide +kernel
  have hentries : ∀ n ∈ [2, 12, 13], ∀ pos ∈ dirEntries exSectors n,
      isLive exSectors pos = true →
      (deInode exSectors pos ≤ sInodesCount exSectors ∧
        1 ≤ iLinksCount exSectors (deInode exSectors pos)) ∧
      (IsFileEntry exSectors pos ↔ IsFile exSectors (deInode exSectors pos)) ∧
      (deName exSectors pos = [dot] ∨ deName exSectors pos = [dot, dot] →
        ¬ IsFile exSectors (deInode exSectors pos)) := by decide +kernel
  have hgeometry : Geometry exSectors := by
    constructor
    all_goals decide +kernel
  refine ⟨⟨by decide +kernel, fun n hn => ?_⟩, hgeometry, fun n hn b hb => ?_,
    fun n hn pos hpos hlive => (hentries n (exSectors_isDirectory hn) pos hpos hlive).1,
    fun n hn pos hpos hlive => (hentries n (exSectors_isDirectory hn) pos hpos hlive).2.1,
    fun n hn pos hpos hlive => (hentries n (exSectors_isDirectory hn) pos hpos hlive).2.2⟩
  · obtain ⟨hend, b, hb, hlist, hino⟩ := hdirs n (exSectors_isDirectory hn)
    obtain ⟨htiles, -, -, hname, hdot⟩ := hblocks b hb
    refine ⟨⟨1, by decide, hend⟩, fun b' hb' => ?_, b, [], hlist, hino, hname, hdot, by simp⟩
    rw [hlist, List.mem_singleton] at hb'
    rwa [hb']
  · obtain ⟨-, b', hb', hlist, -⟩ := hdirs n (exSectors_isDirectory hn)
    rw [hlist, List.mem_singleton] at hb
    rw [hb]
    obtain ⟨htiles, hlong, ⟨h₁, h₂, h₃, h₄, h₅⟩, -⟩ := hblocks b' hb'
    exact ⟨⟨htiles, fun pos hpos => (hlong pos hpos).1, fun pos hpos => (hlong pos hpos).2⟩,
      h₁, h₂, h₃, h₄, .inr h₅⟩

/-- `/f` is listed right. -/
theorem lists_iff_file : ∃ out, ls false [47, 102] exSectors = some out ∧
    Lists exSectors false [47, 102] 15 out :=
  (lists_iff exSectors_intact exSectors_sectors (by decide) (by decide +kernel)
    (.inr (by decide +kernel)) false).2
    ⟨by decide +kernel, by decide,
      fun hn => absurd (exSectors_isDirectory hn) (by decide),
      fun _ => ⟨by decide +kernel, 9252, by decide +kernel, .inl (by decide +kernel)⟩⟩

/-- After the block of `/a` comes block 0; and for the file `/a/b/a` the entries of `/a` are
printed, `b` without `-a`. -/
theorem ls_wrong : Intact exSectors ∧ Sectors exSectors ∧
    (ls false [47, 97] exSectors).map (·.blocks) = some [10, 0] ∧
    (¬ ∃ out, ls false [47, 97] exSectors = some out ∧
      Lists exSectors false [47, 97] 12 out) ∧
    walk exSectors ext2RootIno (tokens [47, 97, 47, 98, 47, 97]) = some 14 ∧
    IsFile exSectors 14 ∧
    (ls false [47, 97, 47, 98, 47, 97] exSectors).map (·.stdout) = some [[98]] ∧
    ¬ ∃ out, ls false [47, 97, 47, 98, 47, 97] exSectors = some out ∧
      Lists exSectors false [47, 97, 47, 98, 47, 97] 14 out := by
  have hblocks : (ls false [47, 97] exSectors).map (·.blocks) = some [10, 0] := by decide +kernel
  have hstdout : (ls false [47, 97, 47, 98, 47, 97] exSectors).map (·.stdout) = some [[98]] := by
    decide +kernel
  have hfile : IsFile exSectors 14 := by decide +kernel
  refine ⟨exSectors_intact, exSectors_sectors, hblocks, ?_, by decide +kernel, hfile, hstdout, ?_⟩
  · rintro ⟨out, hrun, hlists⟩
    rw [hrun, Option.map_some, Option.some.injEq] at hblocks
    have hmem := (hlists.directory (by decide +kernel)).2 0 (by rw [hblocks]; decide)
    exact zero_notMem_blockList hmem
  · rintro ⟨out, hrun, hlists⟩
    rw [hrun, Option.map_some, Option.some.injEq, hlists.file hfile] at hstdout
    exact absurd hstdout (by decide)

end Cscc69.Ext2
