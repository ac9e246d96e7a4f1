import Cscc69.Paging.Simulator

/-!
# What one reference does

A `Pager` is the simulator as the replacement policies cannot change it: a `Page` for every entry,
the coremap, the two memories and the counters. `Refer` says what a reference makes of it: a hit,
a load into a free frame, or an eviction and a load, where any victim is possible.

A `Page` has all the status bits but `PG_REF`, which is kept apart (`Sim.refBit`).
`findPhyspage_placed` says what `find_physpage` does with the two and with the policy's own data,
under every policy: the page is found or placed (`Policy.Placed`), and the policy is told.
`findPhyspage_refer` is what is left of this for the pager, a `Refer`. The invariants are proved for
these, and the code is not unfolded again.
-/

namespace Cscc69.Paging

open Bytes

variable {σ : Type*}

structure Pager where
  page : Ptr → Page
  coremap : ℕ → Frame
  physmem : Mem
  swap : Swap
  counters : Counters

def Sim.pager (s : Sim σ) : Pager :=
  ⟨fun p => (s.entry p).page, s.coremap, s.physmem, s.swap, s.counters⟩

/-! ## Entries -/

variable {s s' : Sim σ} {p q : Ptr}

@[simp] theorem entry_setEntry (s : Sim σ) (p : Ptr) (e : PgtblEntry) :
    (s.setEntry p e).entry = Function.update s.entry p e := by
  funext q
  obtain ⟨d, t⟩ := p
  obtain ⟨d', t'⟩ := q
  unfold Sim.entry Sim.setEntry
  by_cases hd : d' = d
  · subst hd
    by_cases ht : t' = t
    · subst ht
      simp
    · have hne : (d', t') ≠ (d', t) := fun h => ht (Prod.mk.inj h).2
      rw [Function.update_of_ne hne]
      simp [ht]
  · have hne : (d', t') ≠ (d, t) := fun h => hd (Prod.mk.inj h).1
    rw [Function.update_of_ne hne]
    simp [hd]

/-- Making a second-level table changes no entry. -/
theorem entry_initSecondLevel (s : Sim σ) {dir : Fin ptrsPerPgdir}
    (h : (s.pgdir dir).isNone = true) :
    ({ s with pgdir := Function.update s.pgdir dir (some initSecondLevel) } : Sim σ).entry =
      s.entry := by
  funext q
  unfold Sim.entry
  by_cases hd : q.1 = dir
  · rw [hd, Option.isNone_iff_eq_none.1 h]
    simp
  · simp [hd]

theorem OnlyRef.pager (h : OnlyRef s s') : s'.pager = s.pager := by
  unfold Sim.pager
  rw [h.coremap, h.physmem, h.swap, h.counters]
  congr 1
  funext p
  exact page_congr (h.frame p) (h.swapOff p)

/-! ## Reference bits -/

/-- `PG_REF`, the status bit that a `Page` leaves out. -/
def Sim.refBit (s : Sim σ) (p : Ptr) : Bool := (s.entry p).frame.getLsbD 2

@[simp] theorem refBit_setEntry (s : Sim σ) (p : Ptr) (e : PgtblEntry) :
    (s.setEntry p e).refBit = Function.update s.refBit p (e.frame.getLsbD 2) := by
  funext q
  unfold Sim.refBit
  rw [entry_setEntry]
  by_cases hq : q = p
  · subst hq
    simp
  · simp [hq]

theorem refBit_setFrame (s : Sim σ) (p : Ptr) (w : BitVec 32) :
    (s.setFrame p w).refBit = Function.update s.refBit p (w.getLsbD 2) :=
  refBit_setEntry s p _

theorem refBit_orFrame (s : Sim σ) (p : Ptr) (flags : BitVec 32) :
    (s.orFrame p flags).refBit =
      Function.update s.refBit p (s.refBit p || flags.getLsbD 2) := by
  unfold Sim.orFrame
  rw [refBit_setFrame, BitVec.getLsbD_or]
  rfl

/-- The other flags leave it as it is. -/
theorem refBit_orFrame_of_false (s : Sim σ) (p : Ptr) {flags : BitVec 32}
    (h : flags.getLsbD 2 = false) : (s.orFrame p flags).refBit = s.refBit := by
  rw [refBit_orFrame, h, Bool.or_false, Function.update_eq_self]

theorem refBit_clear_valid (s : Sim σ) (p : Ptr) :
    (s.setFrame p ((s.entry p).frame &&& ~~~pgValid)).refBit = s.refBit := by
  have hbit : (~~~pgValid).getLsbD 2 = true := by decide
  rw [refBit_setFrame, BitVec.getLsbD_and, hbit, Bool.and_true]
  exact Function.update_eq_self p s.refBit

/-- A frame number shifted into place leaves it clear. -/
theorem refBit_set_frame (s : Sim σ) (p : Ptr) (frame : ℕ) :
    (s.setFrame p (frameWord (BitVec.ofNat 32 frame))).refBit =
      Function.update s.refBit p false := by
  rw [refBit_setFrame]
  simp [frameWord, pageShift]

/-- Neither the reference bits nor the policy's data change as a victim goes. -/
theorem evictFrame_refBit {io : Transfer} {frame : ℕ} {bye : Ptr}
    (h : evictFrame io frame bye s = some s') :
    s'.refBit = s.refBit ∧ s'.policy = s.policy := by
  unfold evictFrame at h
  split at h
  · obtain rfl := Option.some.inj h
    exact ⟨refBit_clear_valid _ bye, rfl⟩
  · dsimp only at h
    split at h
    · cases h
    · rename_i offset swap _
      obtain rfl := Option.some.inj h
      refine ⟨?_, by split <;> rfl⟩
      rw [refBit_clear_valid]
      split
      · rw [refBit_setEntry]
        refine (Function.update_eq_self bye _).trans ?_
        exact refBit_orFrame_of_false _ bye (by decide)
      · rfl

/-! ## The same steps on pages -/

namespace Pager

def setPage (a : Pager) (p : Ptr) (x : Page) : Pager :=
  { a with page := Function.update a.page p x }

def claim (a : Pager) (frame : ℕ) (p : Ptr) : Pager :=
  { a with coremap := Function.update a.coremap frame ⟨true, some p⟩ }

def countHit (a : Pager) : Pager := { a with counters := a.counters.countRef.countHit }
def countMiss (a : Pager) : Pager := { a with counters := a.counters.countRef.countMiss }

/-- The entry of a victim after `swap_pageout` returned `offset`. -/
def swappedOut (x : Page) (offset : BitVec 32) : Page :=
  if offset ≠ invalidSwap then
    { x with valid := false, onswap := true, swapOff := offset.signExtend 64 }
  else { x with valid := false }

def evictFrame (io : Transfer) (frame : ℕ) (bye : Ptr) (a : Pager) : Option Pager :=
  if (a.page bye).dirty = false then
    some (({ a with counters := a.counters.countClean } : Pager).setPage bye
      { a.page bye with valid := false })
  else
    (swapPageout io a.physmem frame ((a.page bye).swapOff.setWidth 32) a.swap).map
      fun (offset, swap) =>
        ({ a with counters := a.counters.countDirty, swap := swap } : Pager).setPage bye
          (swappedOut (a.page bye) offset)

/-- Give `frame` to the page of `p` and fill it in. -/
def load (frame : ℕ) (p : Ptr) (vaddr : BitVec 64) (a : Pager) : Pager :=
  { a.claim frame p with
    page := Function.update a.page p ⟨false, false, false, frame, (a.page p).swapOff⟩
    physmem := initFrame frame vaddr a.physmem }

/-- The status bits after an access. -/
def touch (p : Ptr) (write : Bool) (a : Pager) : Pager :=
  a.setPage p { a.page p with valid := true, dirty := (a.page p).dirty || write }

end Pager

open Pager

/-- What a reference to the page of `p` can make of the pager `a`. -/
inductive Refer (memsize : ℕ) (io : Transfer) (p : Ptr) (vaddr : BitVec 64) (write : Bool)
    (a : Pager) : Pager → Prop
  | hit : (a.page p).valid = true →
      Refer memsize io p vaddr write a (a.countHit.touch p write)
  | free {frame : ℕ} : (a.page p).valid = false → frame < memsize →
      (a.coremap frame).inUse = false →
      Refer memsize io p vaddr write a ((a.countMiss.load frame p vaddr).touch p write)
  | evict {frame : ℕ} {bye : Ptr} {a' : Pager} : (a.page p).valid = false → frame < memsize →
      (∀ i < memsize, (a.coremap i).inUse = true) → (a.coremap frame).pte = some bye →
      a.countMiss.evictFrame io frame bye = some a' →
      Refer memsize io p vaddr write a ((a'.load frame p vaddr).touch p write)

/-! ## Fields -/

section Fields
variable (a : Pager) (frame : ℕ) (vaddr : BitVec 64) (write : Bool)

theorem touch_page (p : Ptr) : (a.touch p write).page = Function.update a.page p
    { a.page p with valid := true, dirty := (a.page p).dirty || write } := rfl
@[simp] theorem touch_coremap (p : Ptr) : (a.touch p write).coremap = a.coremap := rfl
@[simp] theorem touch_physmem (p : Ptr) : (a.touch p write).physmem = a.physmem := rfl
@[simp] theorem touch_counters (p : Ptr) : (a.touch p write).counters = a.counters := rfl
@[simp] theorem countHit_page : a.countHit.page = a.page := rfl
@[simp] theorem countHit_coremap : a.countHit.coremap = a.coremap := rfl
@[simp] theorem countMiss_page : a.countMiss.page = a.page := rfl
@[simp] theorem countMiss_coremap : a.countMiss.coremap = a.coremap := rfl
@[simp] theorem load_coremap (p : Ptr) : (a.load frame p vaddr).coremap =
    Function.update a.coremap frame ⟨true, some p⟩ := rfl
@[simp] theorem load_physmem (p : Ptr) :
    (a.load frame p vaddr).physmem = initFrame frame vaddr a.physmem := rfl
@[simp] theorem load_counters (p : Ptr) : (a.load frame p vaddr).counters = a.counters := rfl

/-- A page just loaded is clean, unless the access that loaded it writes. -/
theorem load_touch_page (p : Ptr) : ((a.load frame p vaddr).touch p write).page =
    Function.update a.page p ⟨true, write, false, frame, (a.page p).swapOff⟩ := by
  rw [touch_page]
  simp [Pager.load]

end Fields

theorem Refer.valid {memsize : ℕ} {io : Transfer} {p : Ptr} {vaddr : BitVec 64} {write : Bool}
    {a a' : Pager} (href : Refer memsize io p vaddr write a a') : (a'.page p).valid = true := by
  cases href with
  | hit _ | free _ _ _ | evict _ _ _ _ _ => rw [touch_page, Function.update_self]

/-- What an eviction leaves: the victim's page is not valid any more, and the memory is as it
was. -/
theorem evictFrame_some {io : Transfer} {frame : ℕ} {bye : Ptr} {a a' : Pager}
    (h : a.evictFrame io frame bye = some a') :
    a'.coremap = a.coremap ∧ a'.physmem = a.physmem ∧
    a'.counters = (if (a.page bye).dirty = true then a.counters.countDirty
      else a.counters.countClean) ∧
    ∃ x : Page, a'.page = Function.update a.page bye x ∧ x.valid = false ∧
      x.frame = (a.page bye).frame ∧ x.dirty = (a.page bye).dirty := by
  unfold Pager.evictFrame at h
  split at h
  · rename_i hclean
    obtain rfl := Option.some.inj h
    exact ⟨rfl, rfl, by rw [hclean]; rfl, _, rfl, rfl, rfl, rfl⟩
  · rename_i hdirty
    rw [Bool.not_eq_false] at hdirty
    obtain ⟨⟨offset, swap⟩, -, rfl⟩ := Option.map_eq_some_iff.1 h
    refine ⟨rfl, rfl, by rw [hdirty]; rfl, _, rfl, ?_⟩
    unfold swappedOut
    split <;> exact ⟨rfl, rfl, rfl⟩

/-! ## Refinement -/

theorem pager_setEntry (s : Sim σ) (p : Ptr) (e : PgtblEntry) :
    (s.setEntry p e).pager = s.pager.setPage p e.page := by
  unfold Sim.pager Pager.setPage
  rw [entry_setEntry]
  congr 1
  funext q
  by_cases hq : q = p
  · subst hq
    simp
  · simp [hq]

theorem pager_setFrame (s : Sim σ) (p : Ptr) (w : BitVec 32) :
    (s.setFrame p w).pager =
      s.pager.setPage p ({ s.entry p with frame := w } : PgtblEntry).page :=
  pager_setEntry s p _

theorem setPage_self (a : Pager) (p : Ptr) : a.setPage p (a.page p) = a := by
  unfold Pager.setPage
  rw [Function.update_eq_self]

@[simp] theorem setPage_setPage (a : Pager) (p : Ptr) (x y : Page) :
    (a.setPage p x).setPage p y = a.setPage p y := by
  unfold Pager.setPage
  simp

@[simp] theorem setPage_page (a : Pager) (p : Ptr) (x : Page) :
    (a.setPage p x).page p = x := by
  unfold Pager.setPage
  exact Function.update_self p x a.page

theorem pager_page (s : Sim σ) (p : Ptr) : s.pager.page p = (s.entry p).page := rfl

theorem pager_orFrame_valid (s : Sim σ) (p : Ptr) :
    (s.orFrame p pgValid).pager = s.pager.setPage p { s.pager.page p with valid := true } := by
  unfold Sim.orFrame
  rw [pager_setFrame, page_or_valid]
  rfl

theorem pager_orFrame_ref (s : Sim σ) (p : Ptr) : (s.orFrame p pgRef).pager = s.pager := by
  unfold Sim.orFrame
  rw [pager_setFrame, page_or_ref]
  exact setPage_self s.pager p

theorem pager_orFrame_dirty (s : Sim σ) (p : Ptr) :
    (s.orFrame p pgDirty).pager = s.pager.setPage p { s.pager.page p with dirty := true } := by
  unfold Sim.orFrame
  rw [pager_setFrame, page_or_dirty]
  rfl

theorem pager_orFrame_onswap (s : Sim σ) (p : Ptr) :
    (s.orFrame p pgOnswap).pager = s.pager.setPage p { s.pager.page p with onswap := true } := by
  unfold Sim.orFrame
  rw [pager_setFrame, page_or_onswap]
  rfl

theorem pager_clear_valid (s : Sim σ) (p : Ptr) :
    (s.setFrame p ((s.entry p).frame &&& ~~~pgValid)).pager =
      s.pager.setPage p { s.pager.page p with valid := false } := by
  rw [pager_setFrame, page_clear_valid]
  rfl

theorem pager_set_swapOff (s : Sim σ) (p : Ptr) (off : BitVec 64) :
    (s.setEntry p { s.entry p with swapOff := off }).pager =
      s.pager.setPage p { s.pager.page p with swapOff := off } :=
  pager_setEntry s p _

theorem evictFrame_pager (io : Transfer) (frame : ℕ) (bye : Ptr) (s : Sim σ) :
    (evictFrame io frame bye s).map Sim.pager = s.pager.evictFrame io frame bye := by
  unfold evictFrame Pager.evictFrame
  simp only [and_pgDirty]
  rw [show (s.pager.page bye).dirty = (s.entry bye).page.dirty from rfl]
  split
  · rw [Option.map_some, pager_clear_valid]
    rfl
  · rw [show s.pager.physmem = s.physmem from rfl, show s.pager.swap = s.swap from rfl,
      show (s.pager.page bye).swapOff = (s.entry bye).swapOff from rfl,
      show Sim.entry { s with counters := s.counters.countDirty } bye =
        s.entry bye from rfl]
    cases swapPageout io s.physmem frame ((s.entry bye).swapOff.setWidth 32) s.swap with
    | none => rfl
    | some r =>
      obtain ⟨offset, swap⟩ := r
      dsimp only
      rw [Option.map_some, Option.map_some, pager_clear_valid]
      unfold swappedOut
      split
      · rw [pager_set_swapOff, pager_orFrame_onswap]
        simp only [setPage_setPage, setPage_page]
        rfl
      · rfl

/-- `find?` over the frames finds a free one if there is any. -/
theorem find_free {memsize : ℕ} {coremap : ℕ → Frame} {r : Option ℕ}
    (h : ((List.range memsize).find? fun i => !(coremap i).inUse) = r) :
    (∃ frame, r = some frame ∧ frame < memsize ∧ (coremap frame).inUse = false) ∨
    (r = none ∧ ∀ i < memsize, (coremap i).inUse = true) := by
  subst h
  cases hf : (List.range memsize).find? fun i => !(coremap i).inUse with
  | some frame =>
    refine .inl ⟨frame, rfl, List.mem_range.1 (List.mem_of_find?_eq_some hf), ?_⟩
    simpa using List.find?_some hf
  | none =>
    refine .inr ⟨rfl, fun i hi => ?_⟩
    simpa using List.find?_eq_none.1 hf i (List.mem_range.2 hi)

/-- If the frames in use come before the free ones, this is so after the first free one is taken. -/
theorem initial_update {memsize frame : ℕ} {coremap : ℕ → Frame}
    (hinit : ∀ f, (coremap f).inUse = true → ∀ g < f, (coremap g).inUse = true)
    (hfree : ((List.range memsize).find? fun i => !(coremap i).inUse) = some frame) :
    ∀ f, (Function.update coremap frame ⟨true, some p⟩ f).inUse = true → ∀ g < f,
      (Function.update coremap frame ⟨true, some p⟩ g).inUse = true := by
  intro f hf g hg
  by_cases hgf : g = frame
  · rw [hgf, Function.update_self]
  · rw [Function.update_of_ne hgf]
    by_cases hff : f = frame
    · rw [List.find?_range_eq_some] at hfree
      simpa using hfree.2.2 g (hff ▸ hg)
    · rw [Function.update_of_ne hff] at hf
      exact hinit f hf g hg

variable {pol : Policy σ} {memsize frame : ℕ}

/-! ## Placing a page -/

/-- Make the second-level table `dir`, if it is not there. -/
def Sim.withTable (s : Sim σ) (dir : Fin ptrsPerPgdir) : Sim σ :=
  if (s.pgdir dir).isNone then
    { s with pgdir := Function.update s.pgdir dir (some initSecondLevel) }
  else s

section Tables
variable (s : Sim σ) (dir : Fin ptrsPerPgdir)

theorem withTable_entry : (s.withTable dir).entry = s.entry := by
  unfold Sim.withTable
  split
  · rename_i hnone
    exact entry_initSecondLevel s hnone
  · rfl

theorem withTable_rest : (s.withTable dir).coremap = s.coremap ∧
    (s.withTable dir).physmem = s.physmem ∧ (s.withTable dir).swap = s.swap ∧
    (s.withTable dir).counters = s.counters ∧ (s.withTable dir).policy = s.policy := by
  unfold Sim.withTable
  split <;> exact ⟨rfl, rfl, rfl, rfl, rfl⟩

end Tables

/-- The state in which `find_physpage` asks for a frame for the page of `p`. -/
def Sim.missed (s : Sim σ) (p : Ptr) : Sim σ :=
  { s.withTable p.1 with counters := s.counters.countRef.countMiss }

/-- The state in which it has found the page of `p` in memory. -/
def Sim.found (s : Sim σ) (p : Ptr) : Sim σ :=
  { s.withTable p.1 with counters := s.counters.countRef.countHit }

/-- The status bits that it sets on the way out. -/
def Sim.access (s : Sim σ) (p : Ptr) (type : Char) : Sim σ :=
  if Writes type then ((s.orFrame p pgValid).orFrame p pgRef).orFrame p pgDirty
  else (s.orFrame p pgValid).orFrame p pgRef

/-- `find_physpage` at the entry of an address. -/
theorem findPhyspage_eq {io : Io} {vaddr : BitVec 64} {type : Char}
    (hp : entryOf vaddr = some p) :
    findPhyspage pol memsize io vaddr type s =
      (if (s.entry p).frame &&& pgValid = 0 then
          loadPage pol memsize io vaddr p (s.missed p)
        else some (s.found p)).bind fun s₁ : Sim σ =>
        (pol.ref p (s₁.access p type)).map fun s₂ : Sim σ =>
          ((s₂.entry p).frame >>> pageShift * BitVec.ofNat 32 simpagesize, s₂) := by
  obtain ⟨dir, hdir, rfl⟩ := Option.map_eq_some_iff.1 hp
  have hcount := (withTable_rest s dir).2.2.2.1
  rw [← withTable_entry s dir]
  unfold findPhyspage Sim.missed Sim.found
  rw [hdir]
  dsimp only
  rw [show (if (s.pgdir dir).isNone = true then
      { s with pgdir := Function.update s.pgdir dir (some initSecondLevel) } else s) =
      s.withTable dir from rfl, hcount]
  split
  · rename_i hfound
    have hfound' : (if ((s.withTable dir).entry (dir, pgtblIndex vaddr)).frame &&& pgValid = 0
      then _ else _) = _ := hfound
    rw [hfound', Option.bind_none]
  · rename_i s₁ hfound
    have hfound' : (if ((s.withTable dir).entry (dir, pgtblIndex vaddr)).frame &&& pgValid = 0
      then _ else _) = _ := hfound
    rw [hfound', Option.bind_some]
    rfl

@[simp] theorem missed_entry (s : Sim σ) (p : Ptr) : (s.missed p).entry = s.entry :=
  withTable_entry s p.1

@[simp] theorem missed_policy (s : Sim σ) (p : Ptr) : (s.missed p).policy = s.policy :=
  (withTable_rest s p.1).2.2.2.2

@[simp] theorem missed_coremap (s : Sim σ) (p : Ptr) : (s.missed p).coremap = s.coremap :=
  (withTable_rest s p.1).1

@[simp] theorem missed_refBit (s : Sim σ) (p : Ptr) : (s.missed p).refBit = s.refBit := by
  unfold Sim.refBit
  rw [missed_entry]

@[simp] theorem missed_pager (s : Sim σ) (p : Ptr) : (s.missed p).pager = s.pager.countMiss := by
  obtain ⟨hcore, hphys, hswap, -, -⟩ := withTable_rest s p.1
  unfold Sim.pager Pager.countMiss
  rw [missed_entry, ← hcore, ← hphys, ← hswap]
  rfl

theorem found_facts (s : Sim σ) (p : Ptr) : (s.found p).pager = s.pager.countHit ∧
    (s.found p).refBit = s.refBit ∧ (s.found p).policy = s.policy := by
  obtain ⟨hcore, hphys, hswap, -, hpol⟩ := withTable_rest s p.1
  have hentry : (s.found p).entry = s.entry := withTable_entry s p.1
  refine ⟨?_, ?_, hpol⟩
  · unfold Sim.pager Pager.countHit
    rw [hentry, ← hcore, ← hphys, ← hswap]
    rfl
  · unfold Sim.refBit
    rw [hentry]

/-- The page of `p` is found, or placed in a frame, and its status bits are set. What is left of
the reference is to tell the policy. -/
inductive Policy.Placed (pol : Policy σ) (memsize : ℕ) (io : Transfer) (p : Ptr)
    (vaddr : BitVec 64) (write : Bool) (s s₁ : Sim σ) : Prop
  | hit : (s.pager.page p).valid = true → s₁.pager = s.pager.countHit.touch p write →
      s₁.refBit = Function.update s.refBit p true → s₁.policy = s.policy →
      pol.Placed memsize io p vaddr write s s₁
  | free {frame : ℕ} : (s.pager.page p).valid = false →
      ((List.range memsize).find? fun i => !(s.coremap i).inUse) = some frame →
      s₁.pager = (s.pager.countMiss.load frame p vaddr).touch p write →
      s₁.refBit = Function.update s.refBit p true → s₁.policy = s.policy →
      pol.Placed memsize io p vaddr write s s₁
  | evict {frame : ℕ} {bye : Ptr} {s₂ : Sim σ} {a' : Pager} : (s.pager.page p).valid = false →
      (∀ i < memsize, (s.coremap i).inUse = true) → pol.evict (s.missed p) = some (frame, s₂) →
      (s.coremap frame).pte = some bye →
      s.pager.countMiss.evictFrame io frame bye = some a' →
      s₁.pager = (a'.load frame p vaddr).touch p write →
      s₁.refBit = Function.update s₂.refBit p true → s₁.policy = s₂.policy →
      pol.Placed memsize io p vaddr write s s₁

/-- What is left of it for the pager. -/
theorem Policy.Placed.refer {io : Transfer} {vaddr : BitVec 64} {write : Bool}
    (hok : pol.Ok memsize) (h : pol.Placed memsize io p vaddr write s s') :
    Refer memsize io p vaddr write s.pager s'.pager := by
  cases h with
  | hit hv hpager _ _ =>
    rw [hpager]
    exact .hit hv
  | free hv hfree hpager _ _ =>
    have hfree' := List.find?_some hfree
    rw [Bool.not_eq_true'] at hfree'
    rw [hpager]
    exact .free hv (List.mem_range.1 (List.mem_of_find?_eq_some hfree)) hfree'
  | evict hv hall hev hbye hout hpager _ _ =>
    rw [hpager]
    exact .evict hv (hok.evict_lt hev) hall hbye hout

/-- The two outcomes of `allocate_frame`. -/
theorem allocateFrame_cases (hok : pol.Ok memsize) {io : Transfer}
    (h : allocateFrame pol memsize io p s = some (frame, s')) :
    frame < memsize ∧
    (((List.range memsize).find? fun i => !(s.coremap i).inUse) = some frame ∧
        s' = s.claim frame p ∨
      (∀ i < memsize, (s.coremap i).inUse = true) ∧
        ∃ s₂ bye a', pol.evict s = some (frame, s₂) ∧ (s.coremap frame).pte = some bye ∧
          s.pager.evictFrame io frame bye = some a' ∧ s'.pager = a'.claim frame p ∧
          s'.refBit = s₂.refBit ∧ s'.policy = s₂.policy) := by
  unfold allocateFrame at h
  rcases find_free (rfl : ((List.range memsize).find? fun i => !(s.coremap i).inUse) = _) with
    ⟨f, hf, hlt, hfree⟩ | ⟨hnone, hall⟩
  · rw [hf] at h
    obtain ⟨rfl, rfl⟩ : f = frame ∧ s.claim f p = s' := by simpa using h
    exact ⟨hlt, .inl ⟨hf, rfl⟩⟩
  · rw [hnone] at h
    dsimp only at h
    split at h
    · cases h
    · rename_i f s₁ hev
      split at h
      · cases h
      · rename_i bye hbye
        obtain ⟨s₂, hs₂, heq⟩ := Option.map_eq_some_iff.1 h
        obtain ⟨rfl, rfl⟩ := Prod.mk.inj heq
        have hpager : s₁.pager = s.pager := (hok.evict hev).pager
        rw [(hok.evict hev).coremap] at hbye
        have hevict := evictFrame_pager io f bye s₁
        rw [hs₂, hpager, Option.map_some] at hevict
        obtain ⟨href, hpol⟩ := evictFrame_refBit hs₂
        exact ⟨hok.evict_lt hev, .inr ⟨hall, s₁, bye, s₂.pager, hev, hbye, hevict.symm, rfl, href,
          hpol⟩⟩

/-- A page that is loaded is never read back from swap: the frame word has just been written. -/
theorem loadPage_cases (hok : pol.Ok memsize) (hmem : memsize ≤ 2 ^ 19) {io : Io}
    {vaddr : BitVec 64} (h : loadPage pol memsize io vaddr p s = some s') :
    ∃ frame,
      ((List.range memsize).find? fun i => !(s.coremap i).inUse) = some frame ∧
        s'.pager = s.pager.load frame p vaddr ∧
        s'.refBit = Function.update s.refBit p false ∧ s'.policy = s.policy ∨
      (∀ i < memsize, (s.coremap i).inUse = true) ∧
        ∃ s₂ bye a', pol.evict s = some (frame, s₂) ∧ (s.coremap frame).pte = some bye ∧
          s.pager.evictFrame io.pageout frame bye = some a' ∧
          s'.pager = a'.load frame p vaddr ∧
          s'.refBit = Function.update s₂.refBit p false ∧ s'.policy = s₂.policy := by
  unfold loadPage at h
  split at h
  · cases h
  · rename_i frame s₁ halloc
    obtain ⟨hlt, hcases⟩ := allocateFrame_cases hok halloc
    have hset : (s₁.setFrame p (frameWord (BitVec.ofNat 32 frame))).pager =
        s₁.pager.setPage p ⟨false, false, false, frame, (s₁.pager.page p).swapOff⟩ := by
      rw [pager_setFrame, page_set_frame (s₁.entry p) (by omega)]
      rfl
    have honswap : ¬ ((s₁.setFrame p (frameWord (BitVec.ofNat 32 frame))).entry p).frame &&&
        pgOnswap ≠ 0 := by
      rw [not_not, and_pgOnswap, ← pager_page, hset, setPage_page]
    dsimp only at h
    rw [if_neg honswap] at h
    obtain rfl := Option.some.inj h
    have hs' : Sim.pager { s₁.setFrame p (frameWord (BitVec.ofNat 32 frame)) with
        physmem := initFrame frame vaddr s₁.physmem } =
        { (s₁.setFrame p (frameWord (BitVec.ofNat 32 frame))).pager with
          physmem := initFrame frame vaddr s₁.pager.physmem } := rfl
    have href := refBit_set_frame s₁ p frame
    rw [hset] at hs'
    refine ⟨frame, ?_⟩
    rcases hcases with ⟨hfree, rfl⟩ | ⟨hall, s₂, bye, a', hev, hbye, hevict, h₁, href₁, hpol₁⟩
    · exact .inl ⟨hfree, hs', href, rfl⟩
    · rw [h₁] at hs'
      exact .inr ⟨hall, s₂, bye, a', hev, hbye, hevict, hs', href.trans (by rw [href₁]), hpol₁⟩

/-! ### The way out -/

theorem refBit_access (s : Sim σ) (p : Ptr) (type : Char) :
    (s.access p type).refBit = Function.update s.refBit p true := by
  have href : ((s.orFrame p pgValid).orFrame p pgRef).refBit =
      Function.update s.refBit p true := by
    rw [refBit_orFrame, refBit_orFrame_of_false s p (by decide)]
    simp [pgRef]
  unfold Sim.access
  split
  · rw [refBit_orFrame_of_false _ p (by decide), href]
  · exact href

theorem pager_access (s : Sim σ) (p : Ptr) (type : Char) :
    (s.access p type).pager = s.pager.touch p (decide (Writes type)) := by
  unfold Sim.access touch
  split
  · rename_i hw
    rw [pager_orFrame_dirty, pager_orFrame_ref, pager_orFrame_valid]
    simp [hw]
  · rename_i hw
    rw [pager_orFrame_ref, pager_orFrame_valid]
    simp [hw]

theorem policy_access (s : Sim σ) (p : Ptr) (type : Char) :
    (s.access p type).policy = s.policy := by
  unfold Sim.access
  split <;> rfl

/-- The pointer to the frame of an entry. -/
theorem pointer_eq (s : Sim σ) (p : Ptr) :
    (s.entry p).frame >>> pageShift * BitVec.ofNat 32 simpagesize =
      BitVec.ofNat 32 ((s.pager.page p).frame * simpagesize) := by
  rw [BitVec.ofNat_mul]
  show _ = BitVec.ofNat 32 ((s.entry p).frame >>> pageShift).toNat * _
  rw [BitVec.ofNat_toNat, BitVec.setWidth_eq]

/-- The page is found or placed before the policy is told. -/
theorem placed_access (hok : pol.Ok memsize) (hmem : memsize ≤ 2 ^ 19) {io : Io}
    {vaddr : BitVec 64} {s₁ : Sim σ}
    (h : (if (s.entry p).frame &&& pgValid = 0 then loadPage pol memsize io vaddr p (s.missed p)
      else some (s.found p)) = some s₁) (type : Char) :
    pol.Placed memsize io.pageout p vaddr (decide (Writes type)) s (s₁.access p type) := by
  have hpager₁ := pager_access s₁ p type
  have hbit₁ := refBit_access s₁ p type
  have hpol₁ := policy_access s₁ p type
  split at h
  · rename_i hinvalid
    have hv : (s.pager.page p).valid = false := and_pgValid.1 hinvalid
    obtain ⟨frame, hcases⟩ := loadPage_cases hok hmem h
    rw [missed_pager, missed_refBit, missed_policy, missed_coremap] at hcases
    rcases hcases with ⟨hfree, hload, hbit, hpol⟩ |
      ⟨hall, s₃, bye, a', hev, hbye, hevict, hload, hbit, hpol⟩
    · refine .free hv hfree (hpager₁.trans (by rw [hload])) (hbit₁.trans ?_) (hpol₁.trans hpol)
      rw [hbit, Function.update_idem]
    · refine .evict hv hall hev hbye hevict (hpager₁.trans (by rw [hload])) (hbit₁.trans ?_)
        (hpol₁.trans hpol)
      rw [hbit, Function.update_idem]
  · rename_i hvalid
    rw [and_pgValid, Bool.not_eq_false] at hvalid
    obtain rfl := Option.some.inj h
    obtain ⟨hpager, hbit, hpol⟩ := found_facts s p
    exact .hit hvalid (hpager₁.trans (by rw [hpager])) (hbit₁.trans (by rw [hbit]))
      (hpol₁.trans hpol)

/-- **`find_physpage` finds or places the page**, and tells the policy. -/
theorem findPhyspage_placed (hok : pol.Ok memsize) (hmem : memsize ≤ 2 ^ 19) {io : Io}
    {vaddr : BitVec 64} {type : Char} {ptr : BitVec 32}
    (h : findPhyspage pol memsize io vaddr type s = some (ptr, s')) :
    ∃ p s₁, entryOf vaddr = some p ∧
      pol.Placed memsize io.pageout p vaddr (decide (Writes type)) s s₁ ∧
      pol.ref p s₁ = some s' ∧
      ptr = BitVec.ofNat 32 ((s'.pager.page p).frame * simpagesize) := by
  obtain ⟨p, hp⟩ : ∃ p, entryOf vaddr = some p := by
    unfold findPhyspage at h
    unfold entryOf
    cases hdir : dirOf vaddr with
    | none => rw [hdir] at h; cases h
    | some dir => exact ⟨_, rfl⟩
  rw [findPhyspage_eq hp] at h
  obtain ⟨s₁, hfound, h⟩ := Option.bind_eq_some_iff.1 h
  obtain ⟨s₂, href, heq⟩ := Option.map_eq_some_iff.1 h
  obtain ⟨rfl, rfl⟩ := Prod.mk.inj heq
  exact ⟨p, s₁.access p type, hp, placed_access hok hmem hfound type, href, pointer_eq s₂ p⟩

/-- **`find_physpage` under any policy is one of the three references.** -/
theorem findPhyspage_refer (hok : pol.Ok memsize) (hmem : memsize ≤ 2 ^ 19) {io : Io}
    {vaddr : BitVec 64} {type : Char} {ptr : BitVec 32}
    (h : findPhyspage pol memsize io vaddr type s = some (ptr, s')) :
    ∃ p, entryOf vaddr = some p ∧
      Refer memsize io.pageout p vaddr (decide (Writes type)) s.pager s'.pager ∧
      (s'.pager.page p).valid = true ∧
      ptr = BitVec.ofNat 32 ((s'.pager.page p).frame * simpagesize) := by
  obtain ⟨p, s₁, hp, hplaced, href, hptr⟩ := findPhyspage_placed hok hmem h
  have hrefer := hplaced.refer hok
  rw [← (hok.ref href).pager] at hrefer
  exact ⟨p, hp, hrefer, hrefer.valid, hptr⟩

/-- Bump the version counter of the frame of `p`, if the access writes. -/
def Pager.bump (p : Ptr) (write : Bool) (a : Pager) : Pager :=
  let ptr := BitVec.ofNat 32 ((a.page p).frame * simpagesize)
  if write then
    { a with physmem := store a.physmem ptr.toNat 4 (version a.physmem ptr + 1) }
  else a

/-- One step of the simulator: the page is found or placed, the policy is told, and the page is
written to. -/
theorem step_placed (hok : pol.Ok memsize) (hmem : memsize ≤ 2 ^ 19) {r : Reference}
    (h : step pol memsize s r s') :
    ∃ p s₁ s₂, entryOf r.vaddr = some p ∧
      pol.Placed memsize r.io.pageout p r.vaddr (decide (Writes r.type)) s s₁ ∧
      pol.ref p s₁ = some s₂ ∧ s'.pager = s₂.pager.bump p (decide (Writes r.type)) ∧
      s'.refBit = s₂.refBit ∧ s'.policy = s₂.policy := by
  obtain ⟨ok, h⟩ := h
  unfold accessMem at h
  obtain ⟨⟨ptr, s₂⟩, hfind, heq⟩ := Option.map_eq_some_iff.1 h
  obtain ⟨p, s₁, hp, hplaced, href, rfl⟩ := findPhyspage_placed hok hmem hfind
  refine ⟨p, s₁, s₂, hp, hplaced, href, ?_⟩
  dsimp only at heq
  unfold Pager.bump
  by_cases hw : Writes r.type
  · rw [if_pos hw] at heq
    rw [← (Prod.mk.inj heq).2, if_pos (by simpa using hw)]
    exact ⟨rfl, rfl, rfl⟩
  · rw [if_neg hw] at heq
    rw [← (Prod.mk.inj heq).2, if_neg (by simpa using hw)]
    exact ⟨rfl, rfl, rfl⟩

/-- One step of the simulator: a reference, and the write to its page. -/
theorem step_refer (hok : pol.Ok memsize) (hmem : memsize ≤ 2 ^ 19) {r : Reference}
    (h : step pol memsize s r s') :
    ∃ p a', entryOf r.vaddr = some p ∧
      Refer memsize r.io.pageout p r.vaddr (decide (Writes r.type)) s.pager a' ∧
      s'.pager = a'.bump p (decide (Writes r.type)) := by
  obtain ⟨p, s₁, s₂, hp, hplaced, href, hs', -⟩ := step_placed hok hmem h
  have hrefer := hplaced.refer hok
  rw [← (hok.ref href).pager] at hrefer
  exact ⟨p, s₂.pager, hp, hrefer, hs'⟩

end Cscc69.Paging
