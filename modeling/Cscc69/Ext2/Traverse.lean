import Cscc69.Ext2.Directory

/-!
# Path resolution

`traverse` goes from directory to directory, and decides that it has arrived when the entry it
has found has the name of the last component. So it follows the path only up to the first
component of that name (`cutPath`). On the way it takes the first entry of a name, used or not,
and it finds no entry of a directory that `init` has not listed (`obstructed`).

Main results: `traverse_eq` says what it returns, and `resolves_iff` when that is what the walk
along the whole path gives.
-/

namespace Cscc69.Ext2

open Bytes Records

/-! ## Well-formed images -/

/-- The root is a directory, and each directory is as it should be. -/
structure WellFormed (img : Image) : Prop where
  root : isDirectory img ext2RootIno = true
  dirOk : ∀ n, isDirectory img n = true → DirOk img n

variable {img : Image} {n b pos : ℕ} {name c filename : Name} {t : Tables}

/-- The first block of a directory begins with its `.`, and no other block does. -/
theorem WellFormed.block (h : WellFormed img) (hn : isDirectory img n = true) :
    ∃ b bs, blockList img n = b :: bs ∧ BlockTiles img b ∧ isDirOf img n b = true ∧
      ∀ k ∈ bs, ∀ m, isDirOf img m k = false := by
  obtain ⟨b, bs, hlist, hino, -, hdot, hlater⟩ := (h.dirOk n hn).dot
  have hmem : b ∈ blockList img n := by
    rw [hlist]
    exact List.mem_cons_self
  refine ⟨b, bs, hlist, (h.dirOk n hn).tiles b hmem, ?_, fun k hk m => ?_⟩
  · rw [isDirOf, hino, hdot, beq_self_eq_true, Bool.and_self]
  · rw [isDirOf, hlater k hk, Bool.and_false]

/-! ## Looking up a component -/

/-- The entries in the first block of a directory. -/
def firstBlock (img : Image) (n : ℕ) : List ℕ :=
  ((blockList img n).take 1).flatMap (blockEntries img)

/-- The first entry of that name there, used or not. -/
def firstNamed (img : Image) (n : ℕ) (name : Name) : Option ℕ :=
  (firstBlock img n).find? fun pos => deName img pos == name

/-- Whether `traverse` fails to see in directory `n` what the name stands for: `init` has not
listed the directory, or an unused entry of that name comes first, or it is in a later block. -/
def obstructs (img : Image) (n : ℕ) (name : Name) : Bool :=
  isDirectory img n && (!isVisible n ||
    match firstNamed img n name with
    | some pos => !isLive img pos
    | none => (lookup img n name).isSome)

/-- Whether that happens on the way along a path. -/
def obstructed (img : Image) : ℕ → List Name → Bool
  | _, [] => false
  | n, name :: names =>
    obstructs img n name || (lookup img n name).any fun m => obstructed img m names

theorem find?_and_eq_some {α : Type*} {p q : α → Bool} {l : List α} {a : α}
    (h : l.find? p = some a) (hq : q a = true) : l.find? (fun x => q x && p x) = some a := by
  obtain ⟨hp, as, bs, rfl, has⟩ := List.find?_eq_some_iff_append.1 h
  refine List.find?_eq_some_iff_append.2 ⟨by rw [hq, hp]; rfl, as, bs, rfl, fun x hx => ?_⟩
  rw [Bool.not_eq_true', Bool.and_eq_false_iff]
  exact .inr (by simpa using has x hx)

theorem dirEntries_eq (img : Image) (n : ℕ) :
    dirEntries img n =
      firstBlock img n ++ ((blockList img n).drop 1).flatMap (blockEntries img) := by
  rw [dirEntries, firstBlock, ← List.flatMap_append, List.take_append_drop]

/-- A used entry that comes first is what the name stands for. -/
theorem lookup_of_firstNamed (hn : isDirectory img n = true)
    (h : firstNamed img n name = some pos) (hlive : isLive img pos = true) :
    lookup img n name = some (deInode img pos) := by
  rw [lookup, if_pos hn, dirEntries_eq, List.find?_append, find?_and_eq_some h hlive,
    Option.some_or, Option.map_some]

theorem lookup_of_not_isDirectory (h : isDirectory img n = false) : lookup img n name = none := by
  rw [lookup, h, if_neg Bool.false_ne_true]

theorem findSome?_of_forall_eq {α β : Type*} {f : α → Option β} {l : List α} {a : α}
    (hmem : a ∈ l) (hall : ∀ x ∈ l, x = a) : l.findSome? f = f a := by
  cases hfa : f a with
  | none =>
    rw [List.findSome?_eq_none_iff]
    intro x hx
    rw [hall x hx, hfa]
  | some r =>
    obtain ⟨x, xs, rfl⟩ := List.exists_cons_of_ne_nil (List.ne_nil_of_mem hmem)
    rw [List.findSome?_cons, hall x List.mem_cons_self, hfa]

/-- The loop of `traverse` over the directory blocks: it finds the first entry of the name in a
directory that `init` has listed, and nothing in any other. -/
theorem searchDirs_traverse (hwf : WellFormed img) (hinit : init img = some t) (n : ℕ)
    (name : Name) :
    ∃ r, searchDirs img (isDirOf img n) (namesEntry img name) t.dirs = some r ∧
      r.map Prod.snd =
        if isVisible n && isDirectory img n then firstNamed img n name else none := by
  have hroot : inUse img ext2RootIno = true := (Bool.and_eq_true _ _ ▸ hwf.root : _ ∧ _).1
  have hlisted : ∀ {m}, m ∈ listedDirs img ↔ isVisible m = true ∧ isDirectory img m = true :=
    mem_listedDirs_iff hroot
  have hdirs := init_dirs hinit fun m hm => (hwf.dirOk m (hlisted.1 hm).2).ends
  -- a block that `traverse` enters is the first one of directory `n`
  have howner : ∀ b ∈ t.dirs, isDirOf img n b = true →
      n ∈ listedDirs img ∧ (∃ bs, blockList img n = b :: bs) ∧ BlockTiles img b := by
    intro b hb hof
    rw [hdirs] at hb
    obtain ⟨m, hm, hbm⟩ := List.mem_flatMap.1 hb
    obtain ⟨b', bs, hlist, htiles, hof', hlater⟩ := hwf.block (hlisted.1 hm).2
    rw [hlist] at hbm
    rcases List.mem_cons.1 hbm with rfl | hbm
    · obtain rfl : n = m := by
        simp only [isDirOf, Bool.and_eq_true, beq_iff_eq] at hof hof'
        rw [hof.1, hof'.1]
      exact ⟨hm, ⟨bs, hlist⟩, htiles⟩
    · rw [hlater b hbm n] at hof
      cases hof
  rw [searchDirs_eq fun b hb hof => (howner b hb hof).2.2]
  refine ⟨_, rfl, ?_⟩
  by_cases hvis : n ∈ listedDirs img
  · obtain ⟨hv, hn⟩ := hlisted.1 hvis
    obtain ⟨b, bs, hlist, htiles, hof, -⟩ := hwf.block hn
    have hb : b ∈ t.dirs := by
      rw [hdirs]
      exact List.mem_flatMap.2 ⟨n, hvis, by rw [hlist]; exact List.mem_cons_self⟩
    have hall : ∀ b' ∈ t.dirs.filter (isDirOf img n), b' = b := by
      intro b' hb'
      obtain ⟨hmem, hof'⟩ := List.mem_filter.1 hb'
      obtain ⟨bs', hlist'⟩ := (howner b' hmem hof').2.1
      rw [hlist] at hlist'
      exact (List.cons.inj hlist').1.symm
    have hfirst : firstBlock img n = blockEntries img b := by
      rw [firstBlock, hlist, List.take_succ_cons, List.take_zero, List.flatMap_singleton]
    rw [findSome?_of_forall_eq (List.mem_filter.2 ⟨hb, hof⟩) hall, findPair_snd, hv, hn,
      Bool.and_self, if_pos rfl, firstNamed, hfirst]
    congr 1
    funext pos
    rw [Bool.eq_iff_iff, namesEntry_iff, beq_iff_eq]
  · have hnone : t.dirs.filter (isDirOf img n) = [] := by
      rw [List.filter_eq_nil_iff]
      intro b hb hof
      exact hvis (howner b hb hof).1
    have hno : ¬ (isVisible n && isDirectory img n) = true := by
      rw [Bool.and_eq_true, ← hlisted]
      exact hvis
    rw [hnone, if_neg hno]
    rfl

/-! ## The recursion -/

/-- A path up to the first component named `last`. -/
def cutAt (last : Name) : List Name → List Name
  | [] => []
  | name :: names => if name = last then [name] else name :: cutAt last names

theorem obstructs_of_firstNamed (hn : isDirectory img n = true) (hv : isVisible n = true)
    (h : firstNamed img n name = some pos) : obstructs img n name = !isLive img pos := by
  simp only [obstructs, hn, hv, h, Bool.not_true, Bool.false_or, Bool.true_and]

theorem obstructed_cons (img : Image) (n : ℕ) (name : Name) (names : List Name) :
    obstructed img n (name :: names) =
      (obstructs img n name || (lookup img n name).any fun m => obstructed img m names) := rfl

theorem walk_cons (img : Image) (n : ℕ) (name : Name) (names : List Name) :
    walk img n (name :: names) = (lookup img n name).bind fun m => walk img m names := rfl

/-- What `traverse` returns when the rest of it returns `rest` on the inode found. -/
def arrive (img : Image) (n : ℕ) (name : Name) (rest : ℕ → ℕ) : ℕ :=
  if obstructs img n name then 0 else ((lookup img n name).map rest).getD 0

/-- One call of `traverse`. -/
theorem traverse_step (hwf : WellFormed img) (hinit : init img = some t) {cs : List Name}
    (hfile : filename ≠ [slash]) {rest : ℕ → ℕ} (hzero : rest 0 = 0)
    (hlast : c = filename → ∀ m, rest m = m)
    (hrest : c ≠ filename → ∃ c' cs', cs = c' :: cs' ∧
      ∀ m, traverse t img filename m c' cs' = some (rest m)) :
    traverse t img filename n c cs = some (arrive img n c rest) := by
  obtain ⟨r, hsearch, hr⟩ := searchDirs_traverse hwf hinit n c
  rw [traverse.eq_def]
  simp only [if_neg hfile, hsearch]
  split at hr
  · rename_i hvis
    obtain ⟨hv, hn⟩ := Bool.and_eq_true _ _ ▸ hvis
    cases r with
    | none =>
      have hfirst : firstNamed img n c = none := hr.symm
      -- an entry in a later block is not seen
      cases hlookup : lookup img n c <;> simp [arrive, obstructs, hn, hv, hfirst, hlookup]
    | some r =>
      have hfirst : firstNamed img n c = some r.2 := hr.symm
      have hname : deName img r.2 = c := by simpa using List.find?_some hfirst
      have harrive : arrive img n c rest = rest (deInode img r.2) := by
        cases hlive : isLive img r.2 with
        | true =>
          simp [arrive, obstructs_of_firstNamed hn hv hfirst, hlive,
            lookup_of_firstNamed hn hfirst hlive]
        | false =>
          have hdead : deInode img r.2 = 0 := by simpa [isLive] using hlive
          simp [arrive, obstructs_of_firstNamed hn hv hfirst, hlive, hdead, hzero]
      simp only
      split
      · rename_i hnamed
        rw [namesEntry_iff, hname] at hnamed
        rw [harrive, hlast hnamed]
      · rename_i hnamed
        rw [namesEntry_iff, hname] at hnamed
        obtain ⟨c', cs', rfl, hgo⟩ := hrest hnamed
        rw [harrive]
        exact hgo _
  · rename_i hvis
    obtain rfl : r = none := Option.map_eq_none_iff.1 hr
    -- the directory is not listed, or is none
    cases hn : isDirectory img n with
    | true =>
      have hv : isVisible n = false := by simpa [hn] using hvis
      simp [arrive, obstructs, hn, hv]
    | false => simp [arrive, obstructs, hn, lookup_of_not_isDirectory hn]

/-- What `traverse` returns on the way along `names`. -/
def arrival (img : Image) (n : ℕ) (names : List Name) : ℕ :=
  if obstructed img n names then 0 else (walk img n names).getD 0

theorem arrival_cons (img : Image) (n : ℕ) (name : Name) (names : List Name) :
    arrival img n (name :: names) = arrive img n name fun m => arrival img m names := by
  rw [arrival, arrive, obstructed_cons, walk_cons]
  cases obstructs img n name with
  | true => simp
  | false => cases lookup img n name <;> simp [arrival]

theorem arrival_zero (img : Image) (name : Name) (names : List Name) :
    arrival img 0 (name :: names) = 0 := by
  have hdir := isDirectory_zero img
  rw [arrival_cons]
  simp [arrive, lookup_of_not_isDirectory hdir]

/-- **What `traverse` returns**: what the walk gives along the path up to the first component with
the name of the last one, or 0. -/
theorem traverse_eq (hwf : WellFormed img) (hinit : init img = some t) {cs : List Name}
    (hfile : filename ≠ [slash]) (hmem : filename ∈ c :: cs) :
    traverse t img filename n c cs = some (arrival img n (cutAt filename (c :: cs))) := by
  induction cs generalizing n c with
  | nil =>
    obtain rfl : filename = c := List.mem_singleton.1 hmem
    rw [cutAt, if_pos rfl, arrival_cons]
    exact traverse_step hwf hinit hfile rfl (fun _ m => rfl) fun hne => absurd rfl hne
  | cons c' cs ih =>
    rw [cutAt]
    split
    · rename_i hc
      rw [arrival_cons]
      exact traverse_step hwf hinit hfile rfl (fun _ m => rfl) fun hne => absurd hc hne
    · rename_i hc
      have hmem' : filename ∈ c' :: cs := (List.mem_cons.1 hmem).resolve_left (Ne.symm hc)
      have hcons : ∃ name names, cutAt filename (c' :: cs) = name :: names := by
        rw [cutAt]
        split
        · exact ⟨_, _, rfl⟩
        · exact ⟨_, _, rfl⟩
      obtain ⟨name, names, hcut⟩ := hcons
      rw [arrival_cons]
      refine traverse_step hwf hinit hfile ?_ (fun h => absurd h hc) fun _ =>
        ⟨c', cs, rfl, fun m => ih hmem'⟩
      rw [hcut, arrival_zero]

/-! ## The tools -/

/-- `traverse`, as the tools call it on a path, returns what the walk along it gives, and 0
exactly when the walk fails. -/
structure Resolves (t : Tables) (img : Image) (path : Name) : Prop where
  found : ∀ m, walk img ext2RootIno (tokens path) = some m →
    traversePath t img (tokens path) (basename path) = some m
  failed : traversePath t img (tokens path) (basename path) = some 0 ↔
    walk img ext2RootIno (tokens path) = none

/-- The path up to the first component with the name of the last one. -/
def cutPath (path : Name) : List Name := cutAt (basename path) (tokens path)

/-- The walk along the path up to the first component with the name of the last one gives what the
walk along the whole path gives; or it meets a directory or a name that `traverse` does not see, and
there is nothing at the path. -/
def Straight (img : Image) (path : Name) : Prop :=
  if obstructed img ext2RootIno (cutPath path) then walk img ext2RootIno (tokens path) = none
  else walk img ext2RootIno (tokens path) = walk img ext2RootIno (cutPath path)

instance (img : Image) (path : Name) : Decidable (Straight img path) := by
  unfold Straight; infer_instance

theorem basename_mem {path : Name} (h : tokens path ≠ []) : basename path ∈ tokens path := by
  rw [basename, List.getLast?_eq_some_getLast h]
  exact List.getLast_mem h

theorem cutAt_append_of_mem {last : Name} {as : List Name} (h : last ∈ as) (bs : List Name) :
    cutAt last (as ++ bs) = cutAt last as := by
  induction as with
  | nil => cases h
  | cons a as ih =>
    rw [List.cons_append, cutAt, cutAt]
    split
    · rfl
    · rename_i hne
      rw [ih ((List.mem_cons.1 h).resolve_left (Ne.symm hne))]

/-- What the tools get for the name of one of the components. -/
theorem traversePath_names (hwf : WellFormed img) (hinit : init img = some t) {names : List Name}
    (hmem : filename ∈ names) (hno : slash ∉ filename) :
    traversePath t img names filename =
      some (arrival img ext2RootIno (cutAt filename names)) := by
  have hfile : filename ≠ [slash] := by
    rintro rfl
    exact hno List.mem_cons_self
  obtain ⟨c, cs, rfl⟩ := List.exists_cons_of_ne_nil (List.ne_nil_of_mem hmem)
  exact traverse_eq hwf hinit hfile hmem

/-- What the tools get for a path. -/
theorem traversePath_eq (hwf : WellFormed img) (hinit : init img = some t) {path : Name}
    (hpath : tokens path ≠ []) :
    traversePath t img (tokens path) (basename path) =
      some (arrival img ext2RootIno (cutPath path)) :=
  traversePath_names hwf hinit (basename_mem hpath) (slash_notMem_tokens (basename_mem hpath))

theorem walk_root_ne_zero {names : List Name} {m : ℕ} (h : walk img ext2RootIno names = some m) :
    m ≠ 0 := walk_ne_zero (by decide) h

theorem straight_iff (img : Image) (path : Name) : Straight img path ↔
    arrival img ext2RootIno (cutPath path) = (walk img ext2RootIno (tokens path)).getD 0 := by
  rw [arrival, Straight]
  split
  · cases hwalk : walk img ext2RootIno (tokens path) with
    | none => simp
    | some m => simpa using (walk_root_ne_zero hwalk).symm
  · cases hwalk : walk img ext2RootIno (tokens path) with
    | none =>
      cases hcut : walk img ext2RootIno (cutPath path) with
      | none => simp
      | some m => simpa using walk_root_ne_zero hcut
    | some m =>
      cases hcut : walk img ext2RootIno (cutPath path) with
      | none => simpa using (walk_root_ne_zero hwalk).symm
      | some m' => simpa using eq_comm

/-- **When a path resolves.** -/
theorem resolves_iff (hwf : WellFormed img) (hinit : init img = some t) {path : Name}
    (hpath : tokens path ≠ []) : Resolves t img path ↔ Straight img path := by
  have heq := traversePath_eq hwf hinit hpath
  rw [straight_iff]
  constructor
  · intro h
    cases hwalk : walk img ext2RootIno (tokens path) with
    | none =>
      have hzero := h.failed.2 hwalk
      rw [heq] at hzero
      exact Option.some.inj hzero
    | some m =>
      have hfound := h.found m hwalk
      rw [heq] at hfound
      exact Option.some.inj hfound
  · intro h
    rw [h] at heq
    refine ⟨fun m hm => by rw [heq, hm]; rfl, ?_⟩
    rw [heq]
    cases hwalk : walk img ext2RootIno (tokens path) with
    | none => simp
    | some m => simpa using walk_root_ne_zero hwalk

/-! ## An example -/

/-- An inode in the table of the example image, with one block or none. -/
def exInode (ino mode links block : ℕ) (img : Image) : Image :=
  let a := 5 * ext2BlockSize + 128 * (ino - 1)
  let img := store img a 2 mode
  let img := store img (a + 26) 2 links
  store img (a + 40) 4 block

/-- The entries `.` and `..` of a block. -/
def exDots (block ino parent : ℕ) (img : Image) : Image :=
  let a := block * ext2BlockSize
  putEntry (putEntry img a ino 12 ext2FtDir [dot]) (a + 12) parent 12 ext2FtDir [dot, dot]

/-- An entry `off` bytes into a block. -/
def exEntry (block off ino len mode : ℕ) (name : Name) (img : Image) : Image :=
  putEntry img (block * ext2BlockSize + off) ino len mode name

/-- 32 inodes and 128 blocks, of which 15 and 11 are in use. Block 0 has no bit, and the last bit is
marked, since there is no block 128. -/
def exSuper : Image :=
  let img := store (fun _ => 0) 1024 4 32
  let img := store img 1028 4 128
  let img := store img 1036 4 116
  let img := store img 1040 4 17
  let img := store img 2048 4 3
  let img := store img 2052 4 4
  let img := store img 2056 4 5
  let img := store img 2060 2 116
  let img := store img 2062 2 17
  let img := store img 3072 16 (0x07FF + 2 ^ 127)
  store img 4096 2 0x7FFF

/-- The directories `/a`, inode 12, and `/a/b`, inode 13, and the files `/a/b/a`, inode 14, and
`/f`, inode 15. -/
def exImage : Image :=
  exEntry 11 24 14 1000 ext2FtRegFile [97] <| exDots 11 13 12 <|
  exEntry 10 24 13 1000 ext2FtDir [98] <| exDots 10 12 2 <|
  exEntry 9 36 15 988 ext2FtRegFile [102] <| exEntry 9 24 12 12 ext2FtDir [97] <| exDots 9 2 2 <|
  exInode 15 0x81A4 1 0 <| exInode 14 0x81A4 1 0 <| exInode 13 0x41ED 2 11 <|
  exInode 12 0x41ED 3 10 <| exInode 2 0x41ED 3 9 exSuper

def exTables : Tables := ⟨[9, 10, 11], [1, 11, 12, 13, 14]⟩

theorem exImage_init : init exImage = some exTables := by decide +kernel

theorem exImage_isDirectory (h : isDirectory exImage n = true) : n = 2 ∨ n = 12 ∨ n = 13 := by
  have hle : n < 33 := by
    simp only [isDirectory, inUse, Bool.and_eq_true, decide_eq_true_eq] at h
    have hcount : sInodesCount exImage = 32 := by decide +kernel
    omega
  have hall : ∀ n < 33, isDirectory exImage n = true → n = 2 ∨ n = 12 ∨ n = 13 := by
    decide +kernel
  exact hall n hle h

theorem exImage_dirOk {b : ℕ} (hend : iBlock exImage n 1 = 0) (hlist : blockList exImage n = [b])
    (htiles : BlockTiles exImage b) (hino : deInode exImage (b * ext2BlockSize) = n)
    (hname : deName exImage (b * ext2BlockSize) = [dot])
    (hdot : isDotAt exImage (b * ext2BlockSize + 8) = true) : DirOk exImage n where
  ends := ⟨1, by decide, hend⟩
  tiles b' hb' := by
    rw [hlist, List.mem_singleton] at hb'
    rw [hb']
    exact htiles
  dot := ⟨b, [], hlist, hino, hname, hdot, fun _ hk => by cases hk⟩

theorem exImage_wellFormed : WellFormed exImage where
  root := by decide +kernel
  dirOk n hn := by
    have hdirs : ∀ b ∈ [9, 10, 11], BlockTiles exImage b ∧
        deName exImage (b * ext2BlockSize) = [dot] ∧
        isDotAt exImage (b * ext2BlockSize + 8) = true := by
      decide +kernel
    rcases exImage_isDirectory hn with rfl | rfl | rfl
    · obtain ⟨htiles, hname, hdot⟩ := hdirs 9 (by decide)
      exact exImage_dirOk (by decide +kernel) (by decide +kernel) htiles (by decide +kernel) hname
        hdot
    · obtain ⟨htiles, hname, hdot⟩ := hdirs 10 (by decide)
      exact exImage_dirOk (by decide +kernel) (by decide +kernel) htiles (by decide +kernel) hname
        hdot
    · obtain ⟨htiles, hname, hdot⟩ := hdirs 11 (by decide)
      exact exImage_dirOk (by decide +kernel) (by decide +kernel) htiles (by decide +kernel) hname
        hdot

/-- `/a/b` resolves. -/
theorem resolves_iff_directory : Resolves exTables exImage [47, 97, 47, 98] :=
  (resolves_iff exImage_wellFormed exImage_init (by decide)).2 (by decide +kernel)

/-- `/a/b/a` is inode 14, but the tools get inode 12, that of `/a`. -/
theorem exImage_not_resolves : WellFormed exImage ∧ init exImage = some exTables ∧
    tokens [47, 97, 47, 98, 47, 97] ≠ [] ∧
    ¬ Resolves exTables exImage [47, 97, 47, 98, 47, 97] := by
  refine ⟨exImage_wellFormed, exImage_init, by decide, fun h => ?_⟩
  have hfound := h.found 14 (by decide +kernel)
  have hgot : traversePath exTables exImage (tokens [47, 97, 47, 98, 47, 97])
      (basename [47, 97, 47, 98, 47, 97]) = some 12 := by decide +kernel
  rw [hgot] at hfound
  exact absurd (Option.some.inj hfound) (by decide)

end Cscc69.Ext2
