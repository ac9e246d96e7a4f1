import Cscc69.Ext2.Helper
import Cscc69.Ext2.Paths

/-!
# The tools

Each tool loads the image, looks at its arguments (`rmChecks`, `mkdirChecks` and so on) and then
changes the image. An `Outcome` is the exit code, what is written to the standard error and the
image afterwards. A run that crashes or does not end has none. The host's file is given to
`ext2_cp` as its contents, if it exists.
-/

namespace Cscc69.Ext2

open Bytes Records

def enoent : ℕ := 2
def eexist : ℕ := 17
def eisdir : ℕ := 21

def dirErr : String := "given path cannot be directory\n"
def dneErr : String := "given path does not exist\n"
def existErr : String := "given name already exists\n"

structure Outcome where
  code : ℕ
  stderr : String
  img : Image

/-- What the checks of a tool come to: a crash, an exit code and a message, or what they found. -/
abbrev Checked (α : Type) := Option (Except (ℕ × String) α)

/-- Exit when the checks say so, and go on with what they found otherwise. -/
def Checked.andThen {α : Type} (c : Checked α) (img : Image) (go : α → Option Outcome) :
    Option Outcome :=
  match c with
  | none => none
  | some (.error (code, stderr)) => some ⟨code, stderr, img⟩
  | some (.ok a) => go a

/-- `traverse` from the root, with `strtok` at the beginning of `path`. An empty path is a null
pointer. -/
def traversePath (t : Tables) (img : Image) (path : List Name) (filename : Name) : Option ℕ :=
  match path with
  | [] => none
  | cur :: rest => traverse t img filename ext2RootIno cur rest

/-! ## ext2_rm -/

/-- Take the entry at `dirFile` out of its block: the one before it takes in its room. -/
def unlinkEntry (img : Image) (prePos : Option ℕ) (dirFile : ℕ) : Image :=
  let img :=
    match prePos with
    | some pre => setRecLen img pre (recLen img pre + recLen img dirFile)
    | none => img
  setDeInode img dirFile 0

/-- Whether an entry is a regular file's or a symbolic link's. -/
def IsFileEntry (img : Image) (pos : ℕ) : Prop :=
  fileType img pos = ext2FtSymlink ∨ fileType img pos = ext2FtRegFile

instance (img : Image) (pos : ℕ) : Decidable (IsFileEntry img pos) := by
  unfold IsFileEntry; infer_instance

/-- The end of `ext2_rm`, when `traverse` has found an inode. -/
def rmFile (env : Env) (t : Tables) (img : Image) (fileInode : ℕ) (filename : Name) :
    Option Outcome :=
  match findDirEntry t img fileInode filename, findPrePos t img fileInode filename with
  | some (some dirFile), some prePos =>
    if IsFileEntry img dirFile then
      some ⟨0, "", removeLink env t (unlinkEntry img prePos dirFile) fileInode⟩
    else some ⟨eisdir, dirErr, img⟩
  | _, _ => none

/-- The checks of `ext2_rm` and `ext2_rm_bonus`. -/
def rmChecks (path : Name) (img : Image) : Checked (Tables × ℕ) :=
  match init img with
  | none => none
  | some t =>
    let filename := basename path
    if path = [slash] then some (.error (1, dirErr))
    else if filename = [dot] ∨ filename = [dot, dot] then some (.error (1, dirErr))
    else if tokens path = [] then some (.error (enoent, dneErr))
    else
      match traversePath t img (tokens path) filename with
      | none => none
      | some 0 => some (.error (enoent, dneErr))
      | some fileInode => some (.ok (t, fileInode))

def rm (env : Env) (path : Name) (img : Image) : Option Outcome :=
  (rmChecks path img).andThen img fun (t, fileInode) =>
    rmFile env t img fileInode (basename path)

/-! ## ext2_mkdir -/

/-- The end of `ext2_mkdir`: a new inode, its entry and its block. -/
def addDir (t : Tables) (img : Image) (parent : ℕ) (name : Name) : Option Image :=
  let (inode, img) := findFreeInode img
  match createLink t img parent inode name ext2FtDir with
  | none => none
  | some (false, img) => some img
  | some (true, img) => allocate img inode parent ext2SIfdir []

/-- The parent directory and the name. -/
def mkdirChecks (path : Name) (img : Image) : Checked (Tables × ℕ × Name) :=
  match init img with
  | none => none
  | some t =>
    if path = [slash] then some (.error (eexist, existErr))
    else
      match arrNames path with
      | none => none
      | some [] => some (.error (enoent, dneErr))
      | some [dirName] =>
        match traversePath t img (tokens path) dirName with
        | none => none
        | some 0 => some (.ok (t, ext2RootIno, dirName))
        | some _ => some (.error (eexist, existErr))
      | some (name₁ :: name₂ :: names) =>
        let dirName := (name₂ :: names).getLast (by simp)
        let parentName := (name₁ :: name₂ :: names).dropLast.getLast (by simp)
        let parentPath := getParentPath (names.length + 2) path
        match
          if parentPath = [slash] then traverse t img parentName ext2RootIno parentPath []
          else traversePath t img (tokens parentPath) parentName with
        | none => none
        | some 0 => some (.error (enoent, ""))
        | some parent =>
          match traversePath t img (tokens path) dirName with
          | none => none
          | some 0 => some (.ok (t, parent, dirName))
          | some _ => some (.error (eexist, existErr))

/-- The exit code is 0 only for a path with one component. -/
def mkdir (path : Name) (img : Image) : Option Outcome :=
  (mkdirChecks path img).andThen img fun (t, parent, dirName) =>
    (addDir t img parent dirName).map fun img =>
      if countItemInPath path = 1 then ⟨0, dneErr, img⟩ else ⟨enoent, "", img⟩

/-! ## ext2_cp -/

/-- The string at the beginning of `buffer`, unless it does not end. -/
def cString (buffer : Mem) : Option Name :=
  ((List.range imageSize).find? fun i => buffer i == 0).map (Bytes.read buffer 0)

/-- Put a new block into place `index` of the inode's block array. -/
def addBlock (img : Image) (inode index : ℕ) : ℕ × Image :=
  let (block, img) := findFreeBlock img
  let img := setIBlock img inode index block
  (block, setIBlocks img inode (iBlocks img inode + 1))

/-- The loop of `copy`, which `fread`s `data` into `buffer` by the block, and what follows it.
`index` counts down to it: `left` blocks are left of the first twelve. -/
def copyBlocks (inode : ℕ) : ℕ → Image → Mem → List UInt8 → ℕ → Option Image
  | 0, img, _, data, total =>
    let _ := data
    some (setISize img inode total)
  | left + 1, img, buffer, data, total =>
    let chunk := data.take ext2BlockSize
    let buffer := write buffer 0 chunk
    let (block, img) := addBlock img inode (11 - left)
    if chunk = [] then
      -- the last block is for the bytes of a last, partial read, of which none are left
      some (setISize img inode total)
    else
      match cString buffer with
      | none => none
      | some s =>
        copyBlocks inode left (strcpy img (block * ext2BlockSize) s) buffer
          (data.drop ext2BlockSize) (total + chunk.length)

def copy (env : Env) (img : Image) (inode : ℕ) (data : List UInt8) : Option Image :=
  if inode = 0 then none else copyBlocks inode 12 img env.stack data 0

/-- The end of `ext2_cp`: a new inode, its entry and its contents. -/
def addFile (env : Env) (t : Tables) (img : Image) (parent : ℕ) (name : Name)
    (data : List UInt8) : Option Image :=
  let (inode, img) := findFreeInode img
  match createLink t img parent inode name ext2FtRegFile with
  | none => none
  | some (false, img) => some img
  | some (true, img) =>
    match allocate img inode ext2RootIno ext2SIfreg [] with
    | none => none
    | some img => copy env img inode data

/-- The parent directory, the name and the contents of the file. -/
def cpChecks (file : Option (List UInt8)) (path₁ path₂ : Name) (img : Image) :
    Checked (Tables × ℕ × Name × List UInt8) :=
  match init img with
  | none => none
  | some t =>
    if path₁ = [slash] then some (.error (eisdir, dirErr))
    else if countItemInPath path₁ = 0 then some (.error (enoent, dneErr))
    else
      match file with
      | none => some (.error (enoent, dneErr))
      | some data =>
        match arrNames path₁, arrNames path₂ with
        | some names₁, some names₂ =>
          let filename := names₁.getLastD []
          let path := path₂ ++ slash :: filename
          match traversePath t img (tokens path) filename with
          | none => none
          | some inode₂ =>
            match
              if names₂ = [] then some ext2RootIno
              else traversePath t img (tokens path₂) (names₂.getLastD []) with
            | none => none
            | some parent =>
              if inode₂ ≠ 0 then some (.error (eexist, existErr))
              else if parent = 0 then some (.error (enoent, dneErr))
              else some (.ok (t, parent, filename, data))
        | _, _ => none

def cp (env : Env) (file : Option (List UInt8)) (path₁ path₂ : Name) (img : Image) :
    Option Outcome :=
  (cpChecks file path₁ path₂ img).andThen img fun (t, parent, filename, data) =>
    (addFile env t img parent filename data).map fun img => ⟨0, "", img⟩

/-! ## ext2_ln -/

/-- The end of `ext2_ln` without `-s`. Whether the entry could be added is not looked at. -/
def addHardLink (t : Tables) (img : Image) (parent inode : ℕ) (name : Name) : Option Image :=
  match createLink t img parent inode name ext2FtRegFile with
  | none => none
  | some (_, img) => allocate img inode parent ext2SIfreg []

/-- The end of `ext2_ln -s`. -/
def addSymlink (t : Tables) (img : Image) (parent : ℕ) (name path : Name) : Option Image :=
  let (inode, img) := findFreeInode img
  match createLink t img parent inode name ext2FtSymlink with
  | none => none
  | some (_, img) => allocate img inode parent ext2SIflnk path

/-- The parent directory of the second path, its last component, and the inode at the first. -/
def lnChecks (path₁ path₂ : Name) (img : Image) : Checked (Tables × ℕ × ℕ × Name) :=
  match init img with
  | none => none
  | some t =>
    if path₁ = [slash] ∨ path₂ = [slash] then some (.error (eisdir, dirErr))
    else if countItemInPath path₁ = 0 ∨ countItemInPath path₂ = 0 then
      some (.error (enoent, dneErr))
    else
      match arrNames path₁ with
      | none => none
      | some names₁ =>
        let filename₁ := names₁.getLastD []
        match traversePath t img (tokens path₁) filename₁ with
        | none => none
        | some 0 => some (.error (enoent, dneErr))
        | some inode₁ =>
          match arrNames path₂ with
          | none => none
          | some names₂ =>
            let filename₂ := names₂.getLastD []
            let parentPath := getParentPath names₂.length path₂
            match
              if 2 ≤ names₂.length then traversePath t img (tokens path₂) filename₂
              else traverse t img filename₂ ext2RootIno filename₂ [] with
            | none => none
            | some inode₂ =>
              if inode₂ ≠ 0 then some (.error (eexist, existErr))
              else
                match findDirEntry t img inode₁ filename₁ with
                | some (some dirFile) =>
                  if IsFileEntry img dirFile then
                    match
                      if 2 ≤ names₂.length then
                        traversePath t img (tokens parentPath) (names₂.dropLast.getLastD [])
                      else some ext2RootIno with
                    | none => none
                    | some 0 => some (.error (enoent, ""))
                    | some parent => some (.ok (t, parent, inode₁, filename₂))
                  else some (.error (eisdir, dirErr))
                | _ => none

def ln (sflag : Bool) (path₁ path₂ : Name) (img : Image) : Option Outcome :=
  (lnChecks path₁ path₂ img).andThen img fun (t, parent, inode₁, filename₂) =>
    (if sflag then addSymlink t img parent filename₂ path₂
      else addHardLink t img parent inode₁ filename₂).map fun img => ⟨enoent, "", img⟩

/-! ## ext2_rm_bonus -/

/-- The loop of `remove_r` over the entries of a block; `rec` is the recursive call. The result is
that of the last call, `k` the number of names allocated so far. -/
def removeEntries (env : Env) (rec : Image → ℕ → ℕ → Name → Option (ℕ × Image × ℕ)) (index : ℕ) :
    ℕ → Image → ℕ → ℕ → ℕ → Option (ℕ × Image × ℕ)
  | 0, _, _, _, _ => none
  | fuel + 1, img, k, result, pos =>
    let curLen := recLen img pos
    let called :=
      if (IsFileEntry img pos ∨ fileType img pos = ext2FtDir) ∧
          !strncmpEq img [dot] (pos + 8) (nameLen img pos) ∧
          !strncmpEq img [dot, dot] (pos + 8) (nameLen img pos) ∧
          (index = 0 ∨ result = 1) then
        -- the copied name is not terminated
        let name := (deName img pos).takeWhile (· ≠ 0)
        let name := if name.length = nameLen img pos then name ++ env.garbage k else name
        rec img (k + 1) (deInode img pos) name
      else some (result, img, k)
    match called with
    | none => none
    | some (result, img, k) =>
      if atBlockEnd (pos + curLen) then some (result, img, k)
      else removeEntries env rec index fuel img k result (pos + curLen)

/-- The loop of `remove_r` over the blocks of the directory `inode`. -/
def removeBlocks (env : Env) (rec : Image → ℕ → ℕ → Name → Option (ℕ × Image × ℕ)) (inode : ℕ) :
    ℕ → Image → ℕ → ℕ → ℕ → Option (ℕ × Image × ℕ)
  | 0, _, _, _, _ => none
  | fuel + 1, img, k, result, index =>
    if index < iBlocks img inode then
      match removeEntries env rec index imageSize img k result
        (iBlock img inode index * ext2BlockSize) with
      | none => none
      | some (result, img, k) => removeBlocks env rec inode fuel img k result (index + 1)
    else some (result, img, k)

/-- `remove_r`, to a depth of calls. -/
def removeR (env : Env) (t : Tables) (rflag : Bool) :
    ℕ → Image → ℕ → ℕ → Name → Option (ℕ × Image × ℕ)
  | 0, _, _, _, _ => none
  | depth + 1, img, k, inode, filename =>
    match findDirEntry t img inode filename with
    | some (some dirFile) =>
      if IsFileEntry img dirFile then
        match findPrePos t img inode filename with
        | none => none
        | some prePos => some (1, removeLink env t (unlinkEntry img prePos dirFile) inode, k)
      else if fileType img dirFile = ext2FtDir ∧ rflag then
        -- `in + (inode - 1)` is far outside the image for inode 0
        if inode = 0 then none
        else
          match removeBlocks env (removeR env t rflag depth) inode imageSize img k 0 0 with
          | none => none
          | some (result, img, k) =>
            match findPrePos t img inode filename with
            | none => none
            | some prePos =>
              some (result, removeLink env t (unlinkEntry img prePos dirFile) inode, k)
      else if fileType img dirFile = ext2FtDir then some (eisdir, img, k)
      else some (0, img, k)
    | _ => none

def rmBonus (env : Env) (rflag : Bool) (path : Name) (img : Image) : Option Outcome :=
  (rmChecks path img).andThen img fun (t, fileInode) =>
    (removeR env t rflag imageSize img 0 fileInode (basename path)).map fun (result, img, _) =>
      if result = eisdir then ⟨eisdir, dirErr, img⟩
      else if result = 1 then ⟨0, "", img⟩
      else ⟨enoent, dneErr, img⟩

end Cscc69.Ext2
