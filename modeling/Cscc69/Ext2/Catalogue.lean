import Cscc69.Ext2.ExitCodes
import Cscc69.Ext2.Links

/-!
# The catalogue of names

What a user sees of the directories is which names stand in which of them, and what they name.
`catalogue` is that: for each directory that is reached and each thing that an entry can say, how
often it is said. Where the entries are, which block has room and what happens to bitmaps and counts
is left out.

On catalogues the commands are plain (`Enters`): `ext2_mkdir` enters a name and the two names in the
new directory, `ext2_cp` and `ext2_ln` enter a name, and `ext2_rm` and `ext2_rm_bonus` strike one
out. The tools refine this: in a run whose steps meet the conditions of `links_run`, each tool does
just that, or nothing, and which of the two can be told beforehand (`tools_enter`). So an entry is
there at the end of a run just as often as at its beginning, unless a command of the run is about
its name (`entries_kept`).
-/

namespace Cscc69.Ext2

open Bytes Records Naming

/-! ## Catalogues -/

/-- How often a directory says what. -/
abbrev Catalogue := ℕ × DirEntry → ℕ

namespace Catalogue

/-- One entry of directory `d`. -/
def one (d : ℕ) (e : DirEntry) : Catalogue := Pi.single (d, e) 1

/-- Some entry names `n`. -/
def Names (T : Catalogue) (n : ℕ) : Prop := ∃ d e, T (d, e) ≠ 0 ∧ e.inode = n

/-- `d` is the root or has a name. -/
def HasDir (T : Catalogue) (d : ℕ) : Prop := d = ext2RootIno ∨ T.Names d

end Catalogue

open Catalogue

/-- The entries that removing a path may strike out: files' with the name. -/
def Strikes (path : Name) (e : DirEntry) : Prop :=
  e.name = basename path ∧ e.name ≠ [dot] ∧ e.name ≠ [dot, dot] ∧
    (e.fileType = ext2FtSymlink ∨ e.fileType = ext2FtRegFile)

/-- What the commands do to a catalogue. -/
inductive Enters : Command → Catalogue → Catalogue → Prop
  | mkdir {path : Name} {T : Catalogue} {d n : ℕ} : T.HasDir d → ¬ T.Names n →
      Enters (.mkdir path) T (T + one d ⟨n, ext2FtDir, basename path⟩ +
        one n ⟨n, ext2FtDir, [dot]⟩ + one n ⟨d, ext2FtDir, [dot, dot]⟩)
  | cp {file : Option (List UInt8)} {path₁ path₂ : Name} {T : Catalogue} {d n : ℕ} :
      T.HasDir d → ¬ T.Names n →
      Enters (.cp file path₁ path₂) T (T + one d ⟨n, ext2FtRegFile, basename path₁⟩)
  | ln {path₁ path₂ : Name} {T : Catalogue} {d n : ℕ} : T.HasDir d → T.Names n →
      Enters (.ln false path₁ path₂) T (T + one d ⟨n, ext2FtRegFile, basename path₂⟩)
  | rm {path : Name} {T : Catalogue} {d : ℕ} {e : DirEntry} : Strikes path e →
      Enters (.rm path) (T + one d e) T
  | rmBonus {path : Name} {T : Catalogue} {d : ℕ} {e : DirEntry} : Strikes path e →
      Enters (.rmBonus path) (T + one d e) T

/-- A step of the plain machine: the command is carried out, or nothing happens. -/
def Catalogue.Step (T : Catalogue) (c : Command × Prop) (T' : Catalogue) : Prop :=
  c.2 ∧ Enters c.1 T T' ∨ ¬ c.2 ∧ T' = T

/-! ### The names that a command is about -/

def Command.Adds (name : Name) : Command → Prop
  | .mkdir path => name ∈ [basename path, [dot], [dot, dot]]
  | .cp _ path₁ _ => name = basename path₁
  | .ln _ _ path₂ => name = basename path₂
  | .rm _ | .rmBonus _ => False

def Command.Removes (name : Name) : Command → Prop
  | .rm path | .rmBonus path => name = basename path ∧ name ≠ [dot] ∧ name ≠ [dot, dot]
  | .mkdir _ | .cp _ _ _ | .ln _ _ _ => False

section

variable {T T' : Catalogue} {d m : ℕ} {e f : DirEntry} {path : Name} {c : Command × Prop}

theorem one_of_ne (h : e.name ≠ f.name) : one m f (d, e) = 0 :=
  Pi.single_eq_of_ne (fun heq => h (congrArg (fun x => x.2.name) heq)) 1

/-- Only what a removal strikes out goes. -/
theorem Catalogue.Step.le (h : T.Step c T') (hno : c.2 → ¬ c.1.Removes e.name) :
    T (d, e) ≤ T' (d, e) := by
  have hstruck : ∀ {path f m} {T' : Catalogue}, Strikes path f →
      ¬ (e.name = basename path ∧ e.name ≠ [dot] ∧ e.name ≠ [dot, dot]) →
      (T' + one m f) (d, e) ≤ T' (d, e) := by
    intro path f m T' hf hne
    have hname : e.name ≠ f.name := by
      intro heq
      obtain ⟨hpath, hdot, hdots, -⟩ := hf
      rw [← heq] at hpath hdot hdots
      exact hne ⟨hpath, hdot, hdots⟩
    rw [Pi.add_apply, one_of_ne hname, Nat.add_zero]
  obtain ⟨c, go⟩ := c
  rcases h with ⟨hgo, h⟩ | ⟨-, rfl⟩
  · cases h with
    | mkdir _ _ =>
      simp only [Pi.add_apply]
      omega
    | cp _ _ | ln _ _ => exact Nat.le_add_right _ _
    | rm hf | rmBonus hf => exact hstruck hf (hno hgo)
  · exact le_rfl

/-- Only what a command adds comes. -/
theorem Catalogue.Step.ge (h : T.Step c T') (hno : c.2 → ¬ c.1.Adds e.name) :
    T' (d, e) ≤ T (d, e) := by
  obtain ⟨c, go⟩ := c
  rcases h with ⟨hgo, h⟩ | ⟨-, rfl⟩
  · have hno := hno hgo
    cases h with
    | mkdir _ _ =>
      simp only [Command.Adds, List.mem_cons, List.not_mem_nil, or_false, not_or] at hno
      obtain ⟨hname, hdot, hdots⟩ := hno
      rw [Pi.add_apply, Pi.add_apply, Pi.add_apply, one_of_ne hname, one_of_ne hdot,
        one_of_ne hdots]
      exact le_rfl
    | cp _ _ | ln _ _ =>
      rw [Pi.add_apply, one_of_ne]
      · exact le_rfl
      · exact hno
    | rm _ | rmBonus _ => exact Nat.le_add_right _ _
  · exact le_rfl

end

/-! ## What the tools enter -/

variable {img img' : Image} {n m b d x q r : ℕ} {name path path₁ path₂ : Name} {t : Tables}
  {env : Env} {e : DirEntry}

noncomputable def catalogue (img : Image) : Catalogue := (space img).tally (entryAt img)

theorem catalogue_ne_zero : catalogue img (d, e) ≠ 0 ↔
    (space img).Reach d ∧ ∃ q ∈ (space img).places d, entryAt img q = e :=
  Space.tally_ne_zero_iff (entries_finite img)

theorem catalogue_names : (catalogue img).Names n ↔ ¬ Unnamed img n := by
  constructor
  · rintro ⟨d, e, hne, rfl⟩ hno
    obtain ⟨hd, q, hq, rfl⟩ := catalogue_ne_zero.1 hne
    exact hno q (hd.mem_entries hq) rfl
  · intro hno
    obtain ⟨q, ⟨d, hd, hq⟩, heq⟩ : ∃ q ∈ (space img).entries, deInode img q = n := by
      simpa [Unnamed] using hno
    exact ⟨d, entryAt img q, catalogue_ne_zero.2 ⟨hd, q, hq, rfl⟩, heq⟩

theorem catalogue_hasDir (hd : (space img).Reach d) : (catalogue img).HasDir d := by
  rcases hd.cases_named with heq | ⟨q, hq, heq⟩
  · exact .inl heq
  · exact .inr (catalogue_names.2 fun hno => hno q hq heq)

/-! ## Changes of the image -/

theorem Edited.catalogue_eq (h : Edited img img' d b n ∅ ∅) : catalogue img' = catalogue img := by
  funext x
  have hx := h.changes.tally (l := entryAt img) (k := entryAt img')
    (fun q hq => absurd hq (Set.notMem_empty q)) (entries_finite img) Set.finite_empty
    (fun q hq => absurd hq (Set.notMem_empty q)) (fun q hq hkept => h.entryAt_eq hq hkept) x
  rwa [Set.sep_empty, Set.sep_empty, Set.ncard_empty] at hx

theorem DirAdded.catalogue {new : ℕ} (h : DirAdded img img' d b n x name new) (hx : x ≠ 0)
    (hfirst : iBlock img n 1 = 0) : catalogue img' = catalogue img + one d ⟨n, ext2FtDir, name⟩ +
      one n ⟨n, ext2FtDir, [dot]⟩ + one n ⟨d, ext2FtDir, [dot, dot]⟩ := by
  have htally := (h.addsDir hx hfirst).tally (l := entryAt img) (k := entryAt img')
    (entries_finite img) fun q hq => h.edited.entryAt_eq hq (Set.notMem_empty q)
  rw [h.entry, h.dots.here, h.dots.up] at htally
  exact htally

theorem FileAdded.catalogue {new : ℕ} (h : FileAdded img img' d b n name new) :
    catalogue img' = catalogue img + one d ⟨n, ext2FtRegFile, name⟩ := by
  have hfile : ¬ (space img').isDir ((space img').target new) := by
    show ¬ (space img').isDir (deInode img' new)
    rw [h.names new rfl]
    exact h.file
  have htally := h.edited.changes.tally_insert (l := entryAt img) (k := entryAt img') hfile
    (entries_finite img) fun q hq => h.edited.entryAt_eq hq (Set.notMem_empty q)
  rw [h.entry] at htally
  exact htally

theorem FileRemoved.catalogue (h : FileRemoved img img' d b n q) :
    catalogue img = catalogue img' + one d (entryAt img q) := by
  have hs := h.edited.site
  obtain ⟨hqb, hlive, -⟩ := h.edited.gone_mem q rfl
  have hplace : ∀ m, (space img).Reach m → (q ∈ (space img).places m ↔ m = d) := by
    intro m hm
    rw [mem_places]
    constructor
    · rintro ⟨k, hk, hqk, -⟩
      have hkb : k = b := by
        rw [← ((hs.sound.dirs m hm).blocks k hk).div_eq hqk,
          ((hs.sound.dirs d hs.dir).blocks b hs.block).div_eq hqb]
      exact hs.sound.apart m d hm hs.dir b (hkb ▸ hk) hs.block
    · rintro rfl
      exact ⟨b, hs.block, hqb, hlive⟩
  exact h.edited.changes.tally_erase (entries_finite img) hplace
    fun q' hq' hne => h.edited.entryAt_eq hq' hne

/-- A tool that leaves the inode without a name. -/
theorem Sound.leaked (h : Sound img) (hd : (space img).Reach d) (hb : b ∈ blockList img d)
    (hc : freeInode img ≠ 0 → Unnamed img (freeInode img) ∧ ¬ (space img).isDir (freeInode img)) :
    Sound (findFreeInode img).2 ∧ catalogue (findFreeInode img).2 = catalogue img := by
  by_cases hfree : freeInode img = 0
  · rw [findFreeInode_zero hfree]
    exact ⟨h, rfl⟩
  · obtain ⟨hunnamed, hfile⟩ := hc hfree
    have hedit := freeInode_edited h hfree hunnamed hd hb
    have hs := hedit.site
    have hfile' : ¬ (space (findFreeInode img).2).isDir (freeInode img) := by
      show ¬ modeType (iMode _ _) = ext2SIfdir
      rw [(freeInode_iMode h hs.one_le hs.le).1]
      exact hfile
    exact ⟨hedit.sound hfile' fun _ hq => absurd hq (Set.notMem_empty _), hedit.catalogue_eq⟩

/-! ## The tools -/

/-- Whether a command is carried out: the checks pass, and the entry can be added, or the one found
is a file's. -/
def Command.Goes (img : Image) : Command → Prop
  | .mkdir path => ∃ t d name, mkdirChecks path img = some (.ok (t, d, name)) ∧
      HasRoom t img d name ext2FtDir
  | .cp file path₁ path₂ => ∃ t d name data,
      cpChecks file path₁ path₂ img = some (.ok (t, d, name, data)) ∧
        HasRoom t img d name ext2FtRegFile
  | .ln _ path₁ path₂ => ∃ t d r name, lnChecks path₁ path₂ img = some (.ok (t, d, r, name)) ∧
      HasRoom t img d name ext2FtRegFile
  | .rm path | .rmBonus path => ∃ t r pre q, rmChecks path img = some (.ok (t, r)) ∧
      findNamed t img (basename path) = some (pre, q) ∧ IsFileEntry img q

/-- The step that a tool takes, and that the image is sound afterwards. -/
def Tallies (img : Image) (c : Command) (img' : Image) : Prop :=
  Sound img' ∧ (catalogue img).Step (c, c.Goes img) (catalogue img')

variable {c : Command} {o : Outcome}

theorem Tallies.idle (h : Sound img') (hsame : catalogue img' = catalogue img)
    (hno : ¬ c.Goes img) : Tallies img c img' :=
  ⟨h, .inr ⟨hno, hsame⟩⟩

theorem Tallies.refused (h : Sound img) (heq : img' = img) (hno : ¬ c.Goes img) :
    Tallies img c img' := by
  rw [heq]
  exact .idle h rfl hno

/-! ### `ext2_mkdir` -/

theorem mkdirChecks_name (h : mkdirChecks path img = some (.ok (t, d, name))) :
    name = basename path := by
  have hlast : ∀ {names : List Name} (hne : names ≠ []), arrNames path = some names →
      names.getLast hne = basename path := by
    intro names hne harr
    obtain rfl := (arrNames_eq.1 harr).1
    rw [basename_eq hne, List.getLastD_eq_getLast?, List.getLast?_eq_some_getLast hne]
    rfl
  unfold mkdirChecks at h
  split at h
  · cases h
  · split at h
    · cases h
    · split at h
      · cases h
      · cases h
      · rename_i dirName harr
        split at h
        · cases h
        · cases h
          exact hlast (by simp) harr
        · cases h
      · rename_i name₁ name₂ names harr
        simp only at h
        split at h
        · cases h
        · cases h
        · split at h
          · cases h
          · cases h
            exact (List.getLast_cons _).symm.trans (hlast (List.cons_ne_nil _ _) harr)
          · cases h

theorem mkdir_goes (hchecks : mkdirChecks path img = some (.ok (t, d, name)))
    (hrun : mkdir path img = some o) : addDir t img d name = some o.img := by
  rw [mkdir, hchecks] at hrun
  obtain ⟨img', hadd, hout⟩ := Option.map_eq_some_iff.1 hrun
  rw [hadd, ← hout]
  split
  · rfl
  · rfl

theorem tallies_mkdir (h : Sound img) (hc : MkdirCounts path img)
    (hrun : mkdir path img = some o) : Tallies img (.mkdir path) o.img := by
  by_cases hok : ∃ t d name, mkdirChecks path img = some (.ok (t, d, name))
  · obtain ⟨t, d, name, hchecks⟩ := hok
    obtain ⟨hinit, hd, hname⟩ := mkdirChecks_ok hchecks
    have hc := hc t d name hchecks
    have hgoes : (Command.mkdir path).Goes img ↔ HasRoom t img d name ext2FtDir := by
      constructor
      · rintro ⟨t', d', name', hchecks', hroom⟩
        cases hchecks.symm.trans hchecks'
        exact hroom
      · exact fun hroom => ⟨t, d, name, hchecks, hroom⟩
    have hunnamed := unnamed_of_free fun hfree => (hc hfree).1
    rcases addDir_cases h hinit hd hname hunnamed (mkdir_goes hchecks hrun) with
      ⟨hno, heq, hreach, b, hb⟩ | ⟨hroom, b, new, hadded⟩
    · rw [heq]
      obtain ⟨hsound, hsame⟩ := h.leaked hreach hb fun hfree =>
        ⟨(hc hfree).1, ((hc hfree).2.2 hno).2⟩
      exact .idle hsound hsame (mt hgoes.1 hno)
    · obtain ⟨-, hfor, -⟩ := hc (Nat.one_le_iff_ne_zero.1 hadded.site.one_le)
      obtain ⟨hblock, hfirst, -⟩ := hfor hroom
      refine ⟨hadded.sound hblock hfirst, .inl ⟨hgoes.2 hroom, ?_⟩⟩
      rw [hadded.catalogue hblock hfirst, mkdirChecks_name hchecks]
      exact .mkdir (catalogue_hasDir hadded.site.dir) fun hno => catalogue_names.1 hno hunnamed
  · refine .refused h ?_ fun ⟨t, d, name, hchecks, _⟩ => hok ⟨t, d, name, hchecks⟩
    rcases mkdir_cases hrun with heq | ⟨t, d, name, hchecks, -⟩
    · exact heq
    · exact absurd ⟨t, d, name, hchecks⟩ hok

/-! ### `ext2_cp` -/

section

variable {file : Option (List UInt8)} {data : List UInt8}

theorem cp_goes (hchecks : cpChecks file path₁ path₂ img = some (.ok (t, d, name, data)))
    (hrun : cp env file path₁ path₂ img = some o) :
    addFile env t img d name data = some o.img := by
  rw [cp, hchecks] at hrun
  obtain ⟨img', hadd, rfl⟩ := Option.map_eq_some_iff.1 hrun
  exact hadd

theorem tallies_cp (h : Sound img) (hc : CpCounts env file path₁ path₂ img)
    (hrun : cp env file path₁ path₂ img = some o) : Tallies img (.cp file path₁ path₂) o.img := by
  by_cases hok : ∃ t d name data, cpChecks file path₁ path₂ img = some (.ok (t, d, name, data))
  · obtain ⟨t, d, name, data, hchecks⟩ := hok
    obtain ⟨hinit, hd, hname⟩ := cpChecks_ok hchecks
    have hc := hc t d name data hchecks
    have hgoes : (Command.cp file path₁ path₂).Goes img ↔ HasRoom t img d name ext2FtRegFile := by
      constructor
      · rintro ⟨t', d', name', data', hchecks', hroom⟩
        cases hchecks.symm.trans hchecks'
        exact hroom
      · exact fun hroom => ⟨t, d, name, data, hchecks, hroom⟩
    have hunnamed := unnamed_of_free fun hfree => (hc hfree).1
    rcases addFile_cases h hinit hd hname hunnamed (fun hfree => (hc hfree).2.2.1)
      (cp_goes hchecks hrun) with ⟨hno, heq, hreach, b, hb⟩ | ⟨hroom, b, new, hadded⟩
    · rw [heq]
      obtain ⟨hsound, hsame⟩ := h.leaked hreach hb fun hfree =>
        ⟨(hc hfree).1, (hc hfree).2.2.2 hno⟩
      exact .idle hsound hsame (mt hgoes.1 hno)
    · refine ⟨hadded.sound, .inl ⟨hgoes.2 hroom, ?_⟩⟩
      rw [hadded.catalogue, (cpChecks_name hchecks).1]
      exact .cp (catalogue_hasDir hadded.site.dir) fun hno => catalogue_names.1 hno hunnamed
  · refine .refused h ?_ fun ⟨t, d, name, data, hchecks, _⟩ => hok ⟨t, d, name, data, hchecks⟩
    rcases cp_cases hrun with heq | ⟨t, d, name, data, hchecks, -⟩
    · exact heq
    · exact absurd ⟨t, d, name, data, hchecks⟩ hok

end

/-! ### `ext2_ln` -/

/-- What a path leads to is the root or has a name. -/
theorem Sound.traversePath_named (h : Sound img) (hinit : init img = some t) {cs : List Name}
    {c : Name} (hr : traversePath t img cs c = some r) (hne : r ≠ 0) :
    r = ext2RootIno ∨ ¬ Unnamed img r := by
  unfold traversePath at hr
  split at hr
  · cases hr
  · exact (h.traverse hinit hr hne).imp_right fun ⟨q, hq, heq⟩ hno => hno q hq heq

theorem ln_goes (hchecks : lnChecks path₁ path₂ img = some (.ok (t, d, r, name)))
    (hrun : ln false path₁ path₂ img = some o) : addHardLink t img d r name = some o.img := by
  rw [ln, hchecks] at hrun
  obtain ⟨img', hadd, rfl⟩ := Option.map_eq_some_iff.1 hrun
  exact hadd

theorem tallies_ln {sflag : Bool} (h : Sound img) (hc : LnCounts sflag path₁ path₂ img)
    (hrun : ln sflag path₁ path₂ img = some o) : Tallies img (.ln sflag path₁ path₂) o.img := by
  by_cases hok : ∃ t d r name, lnChecks path₁ path₂ img = some (.ok (t, d, r, name))
  · obtain ⟨t, d, r, name, hchecks⟩ := hok
    obtain ⟨hinit, hd, hname, hr, c, htraverse⟩ := lnChecks_ok hchecks
    obtain ⟨rfl, hroom, hfile, -⟩ := hc t d r name hchecks
    have hr₁ : 1 ≤ r := Nat.one_le_iff_ne_zero.2 hr
    have hnamed : ¬ Unnamed img r := by
      refine (h.traversePath_named hinit htraverse hr).resolve_left ?_
      rintro rfl
      exact hfile h.root
    rcases addHardLink_cases h hinit hd hname hr₁ (h.traversePath_le hinit htraverse hr) hfile
      (ln_goes hchecks hrun) with ⟨hno, -⟩ | ⟨-, b, new, hadded, -⟩
    · exact absurd hroom hno
    · refine ⟨hadded.sound, .inl ⟨⟨t, d, r, name, hchecks, hroom⟩, ?_⟩⟩
      rw [hadded.catalogue, (lnChecks_iff.1 hchecks).2.2.2.2.2.2.2.2.2.2.2]
      exact .ln (catalogue_hasDir hadded.site.dir) (catalogue_names.2 hnamed)
  · refine .refused h ?_ fun ⟨t, d, r, name, hchecks, _⟩ => hok ⟨t, d, r, name, hchecks⟩
    rcases ln_cases hrun with heq | ⟨t, d, r, name, hchecks, -⟩
    · exact heq
    · exact absurd ⟨t, d, r, name, hchecks⟩ hok

/-! ### `ext2_rm` and `ext2_rm_bonus` -/

section

variable {pre : ℕ}

theorem Sound.rm_goes (h : Sound img) (hchecks : rmChecks path img = some (.ok (t, r)))
    (hfound : findNamed t img (basename path) = some (pre, q)) (hfile : IsFileEntry img q)
    (hrun : rm env path img = some o) :
    o.img = removeLink env t (unlinkEntry img (some pre) q) r := by
  have hinit := (rmChecks_ok.1 hchecks).1
  rw [rm, hchecks] at hrun
  change rmFile env t img r (basename path) = some o at hrun
  rw [rmFile_eq (fun b hb => (h.blockOk hinit hb).tiles), hfound] at hrun
  simp only [Option.map_some, if_pos hfile] at hrun
  rw [← Option.some.inj hrun]

theorem Sound.rmBonus_goes (h : Sound img) (hchecks : rmChecks path img = some (.ok (t, r)))
    (hfound : findNamed t img (basename path) = some (pre, q)) (hfile : IsFileEntry img q)
    (hdir : fileType img q ≠ ext2FtDir) {rflag : Bool}
    (hrun : rmBonus env rflag path img = some o) :
    o.img = removeLink env t (unlinkEntry img (some pre) q) r := by
  have hinit := (rmChecks_ok.1 hchecks).1
  rw [rmBonus, hchecks] at hrun
  obtain ⟨depth, hdepth⟩ : ∃ depth, imageSize = depth + 1 := ⟨131071, rfl⟩
  obtain ⟨⟨result, img', k⟩, hremove, hout⟩ := Option.map_eq_some_iff.1 hrun
  rw [hdepth, removeR_file (fun b hb => (h.blockOk hinit hb).tiles) hfound hdir,
    if_pos hfile] at hremove
  cases hremove
  rw [← hout]
  rfl

/-- What both do to a file. -/
theorem tallies_remove (h : Sound img) (hc : RmCounts path img)
    (hsame : c.Goes img ↔ (Command.rm path).Goes img)
    (hstrike : ∀ T d e, Strikes path e → Enters c (T + one d e) T)
    (hidle : ¬ c.Goes img → img' = img)
    (hgoes : ∀ t r pre q, rmChecks path img = some (.ok (t, r)) →
      findNamed t img (basename path) = some (pre, q) → IsFileEntry img q →
      img' = removeLink env t (unlinkEntry img (some pre) q) r) : Tallies img c img' := by
  by_cases hok : c.Goes img
  · obtain ⟨t, r, pre, q, hchecks, hfound, hfile⟩ := hsame.1 hok
    obtain ⟨hq, hpre⟩ := hc t r pre q hchecks hfound hfile
    obtain ⟨hinit, -, hdots, -, -, hr⟩ := rmChecks_ok.1 hchecks
    obtain ⟨d, b, hrem⟩ : ∃ d b,
        FileRemoved img (removeLink env t (unlinkEntry img (some pre) q) r) d b r q :=
      rm_edited h hinit hr hfound hfile hq hpre
    have hname : deName img q = basename path := (findNamed_some hfound).1
    have hstrikes : Strikes path (entryAt img q) :=
      ⟨hname, fun heq => hdots (.inl (hname.symm.trans heq)),
        fun heq => hdots (.inr (hname.symm.trans heq)), hfile⟩
    rw [hgoes t r pre q hchecks hfound hfile]
    refine ⟨hrem.sound, .inl ⟨hok, ?_⟩⟩
    rw [hrem.catalogue]
    exact hstrike _ d _ hstrikes
  · exact .refused h (hidle hok) hok

theorem tallies_rm (h : Sound img) (hc : RmCounts path img) (hrun : rm env path img = some o) :
    Tallies img (.rm path) o.img := by
  refine tallies_remove h hc Iff.rfl (fun _ _ _ => .rm) (fun hno => ?_)
    fun t r pre q hchecks hfound hfile => h.rm_goes hchecks hfound hfile hrun
  rcases h.rm_cases hrun with heq | ⟨t, r, pre, q, hchecks, hfound, hfile, -⟩
  · exact heq
  · exact absurd ⟨t, r, pre, q, hchecks, hfound, hfile⟩ hno

theorem tallies_rmBonus (h : Sound img) (hc : RmCounts path img) (hdir : FindsNoDir path img)
    (hrun : rmBonus env true path img = some o) : Tallies img (.rmBonus path) o.img := by
  refine tallies_remove h hc Iff.rfl (fun _ _ _ => .rmBonus) (fun hno => ?_)
    fun t r pre q hchecks hfound hfile =>
      h.rmBonus_goes hchecks hfound hfile (hdir t r pre q hchecks hfound) hrun
  rcases h.rmBonus_cases hrun hdir with heq | ⟨t, r, pre, q, hchecks, hfound, hfile, -⟩
  · exact heq
  · exact absurd ⟨t, r, pre, q, hchecks, hfound, hfile⟩ hno

end

/-! ## Runs -/

theorem Sound.tallies {c : Env × Command} (h : Sound img) (hc : c.2.Counts c.1 img)
    (hstep : ToolStep img c img') : Tallies img c.2 img' := by
  obtain ⟨env, c⟩ := c
  obtain ⟨o, hrun, rfl⟩ := hstep
  cases c with
  | mkdir path => exact tallies_mkdir h hc hrun
  | cp file path₁ path₂ => exact tallies_cp h hc hrun
  | ln sflag path₁ path₂ => exact tallies_ln h hc hrun
  | rm path => exact tallies_rm h hc hrun
  | rmBonus path => exact tallies_rmBonus h hc.1 hc.2 hrun

/-- How the plain machine sees a command: what it is, and whether it is carried out. -/
def seen (img : Image) (c : Env × Command) : Command × Prop := (c.2, c.2.Goes img)

variable {s : List (Lts.Transition Image (Env × Command))}

/-- The run of the plain machine that goes with a run of the tools. -/
theorem catalogue_run (h : Sound img) (hrun : Lts.Run ToolStep img s img')
    (hc : ∀ t ∈ s, t.event.2.Counts t.event.1 t.before) :
    Lts.Run Catalogue.Step (catalogue img) (s.map (Lts.Transition.map catalogue seen))
      (catalogue img') :=
  hrun.map_while (I := Sound) (C := fun img c => c.2.Counts c.1 img) h
    (fun _ _ _ hs hc hst => hs.tallies hc hst) hc

/-- **The tools keep a catalogue.** In a run on a sound image whose steps meet the conditions, each
tool does to the catalogue what the plain machine does, and the image stays sound. -/
theorem tools_enter (h : Sound img) (hrun : Lts.Run ToolStep img s img')
    (hc : ∀ t ∈ s, t.event.2.Counts t.event.1 t.before) :
    Sound img' ∧ Lts.Run Catalogue.Step (catalogue img)
      (s.map (Lts.Transition.map catalogue seen)) (catalogue img') :=
  ⟨hrun.invariant_while (I := Sound) (C := fun img c => c.2.Counts c.1 img) h
    (fun _ _ _ hs hc hst => (hs.tallies hc hst).1) hc, catalogue_run h hrun hc⟩

/-- `ln /f /g`, then `rm /f` -/
theorem tools_enter_move : Sound exMoved ∧ Lts.Run Catalogue.Step (catalogue exImage)
    [⟨catalogue exLinked, seen exLinked (exEnv, .rm [47, 102]), catalogue exMoved⟩,
      ⟨catalogue exImage, seen exImage (exEnv, .ln false [47, 102] [47, 103]),
        catalogue exLinked⟩] (catalogue exMoved) :=
  tools_enter exImage_sound exMove_run exMove_counts

/-- **No name is lost or made up.** In a run on a sound image whose steps meet the conditions, an
entry of a directory is there at the end at least as often as at first if no removal of its name
is carried out, and at most as often if no command that adds the name is. -/
theorem entries_kept (h : Sound img) (hrun : Lts.Run ToolStep img s img')
    (hc : ∀ t ∈ s, t.event.2.Counts t.event.1 t.before) (d : ℕ) (e : DirEntry) :
    ((∀ t ∈ s, t.event.2.Goes t.before → ¬ t.event.2.Removes e.name) →
      catalogue img (d, e) ≤ catalogue img' (d, e)) ∧
    ((∀ t ∈ s, t.event.2.Goes t.before → ¬ t.event.2.Adds e.name) →
      catalogue img' (d, e) ≤ catalogue img (d, e)) := by
  have hplain := catalogue_run h hrun hc
  constructor
  · intro hno
    refine hplain.invariant_while (I := fun T => catalogue img (d, e) ≤ T (d, e))
      (C := fun _ c => c.2 → ¬ c.1.Removes e.name) le_rfl
      (fun _ _ _ hle hne hst => hle.trans (hst.le hne)) ?_
    exact List.forall_mem_map.2 hno
  · intro hno
    refine hplain.invariant_while (I := fun T => T (d, e) ≤ catalogue img (d, e))
      (C := fun _ c => c.2 → ¬ c.1.Adds e.name) le_rfl
      (fun _ _ _ hle hne hst => (hst.ge hne).trans hle) ?_
    exact List.forall_mem_map.2 hno

/-- `ln /f /g`, then `rm /f`: in the root the entry of `a` stays, and none of `f` comes in. -/
theorem entries_kept_move :
    catalogue exImage (2, ⟨12, ext2FtDir, [97]⟩) ≤ catalogue exMoved (2, ⟨12, ext2FtDir, [97]⟩) ∧
      catalogue exMoved (2, ⟨15, ext2FtRegFile, [102]⟩) ≤
        catalogue exImage (2, ⟨15, ext2FtRegFile, [102]⟩) := by
  refine ⟨(entries_kept exImage_sound exMove_run exMove_counts 2 ⟨12, ext2FtDir, [97]⟩).1 ?_,
    (entries_kept exImage_sound exMove_run exMove_counts 2 ⟨15, ext2FtRegFile, [102]⟩).2 ?_⟩
  · exact List.forall_mem_cons.2 ⟨fun _ hremoves => absurd hremoves.1 (by decide),
      List.forall_mem_singleton.2 fun _ => id⟩
  · refine List.forall_mem_cons.2 ⟨fun _ => id, List.forall_mem_singleton.2 fun _ hadds => ?_⟩
    exact absurd (show ([102] : Name) = basename [47, 103] from hadds) (by decide)

end Cscc69.Ext2
