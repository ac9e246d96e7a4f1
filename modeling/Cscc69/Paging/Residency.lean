import Cscc69.Paging.Pager
import Cscc69.Paging.Fifo

/-!
# Residency

Which pages are in memory is kept twice: the coremap points from a frame to the entry of its
page, and a valid entry names its frame. `Pager.Inv` says that the two are inverse to each other.
Every reference keeps it (`Refer.inv`): a load gives away a frame that no valid entry names,
because it was free or because its page has just been made invalid (`Vacated`).

`findPhyspage_bijection` is the invariant for the program, under any policy and any answers of
the system to the swap file's transfers.
-/

namespace Cscc69.Paging

open Pager

variable {σ : Type*} {memsize frame : ℕ} {io : Transfer} {p : Ptr} {vaddr : BitVec 64}
  {write : Bool} {a a' : Pager}

/-- Frames and valid entries point to each other. -/
structure Pager.Inv (memsize : ℕ) (a : Pager) : Prop where
  owned : ∀ f, (a.coremap f).inUse = true → f < memsize ∧
    ∃ q, (a.coremap f).pte = some q ∧ (a.page q).valid = true ∧ (a.page q).frame = f
  resident : ∀ q, (a.page q).valid = true → a.coremap (a.page q).frame = ⟨true, some q⟩

/-- Two valid entries name different frames. -/
theorem Pager.Inv.frame_inj (h : a.Inv memsize) {q q' : Ptr} (hq : (a.page q).valid = true)
    (hq' : (a.page q').valid = true) (heq : (a.page q).frame = (a.page q').frame) : q = q' := by
  have hcore := h.resident q hq
  rw [heq, h.resident q' hq'] at hcore
  exact (Option.some.inj (Frame.mk.inj hcore).2).symm

theorem Pager.Inv.frame_lt (h : a.Inv memsize) {q : Ptr} (hq : (a.page q).valid = true) :
    (a.page q).frame < memsize :=
  (h.owned _ (by rw [h.resident q hq])).1

/-- From `a` to `a'`, the page in `frame` was made invalid, if there was one. -/
structure Vacated (frame : ℕ) (a a' : Pager) : Prop where
  coremap : a'.coremap = a.coremap
  frame_eq : ∀ q, (a'.page q).frame = (a.page q).frame
  dirty_eq : ∀ q, (a'.page q).dirty = (a.page q).dirty
  valid : ∀ q, (a'.page q).valid = true ↔ (a.page q).valid = true ∧ (a.page q).frame ≠ frame

theorem vacated_free (h : a.Inv memsize) (hfree : (a.coremap frame).inUse = false) :
    Vacated frame a a.countMiss where
  coremap := rfl
  frame_eq _ := rfl
  dirty_eq _ := rfl
  valid q := by
    refine ⟨fun hq => ⟨hq, ?_⟩, And.left⟩
    rintro rfl
    have hres := h.resident q hq
    rw [hres] at hfree
    cases hfree

theorem vacated_evict (h : a.Inv memsize) {bye : Ptr} (huse : (a.coremap frame).inUse = true)
    (hbye : (a.coremap frame).pte = some bye)
    (hevict : a.countMiss.evictFrame io frame bye = some a') : Vacated frame a a' := by
  obtain ⟨hcore, -, -, x, hpage, hxv, hxf, hxd⟩ := evictFrame_some hevict
  obtain ⟨-, q, hq, hqv, hqf⟩ := h.owned frame huse
  obtain rfl : bye = q := Option.some.inj (hbye.symm.trans hq)
  refine ⟨hcore, fun r => ?_, fun r => ?_, fun r => ?_⟩
  · rw [hpage]
    by_cases hr : r = bye
    · subst hr
      rw [Function.update_self]
      exact hxf
    · rw [Function.update_of_ne hr]
      rfl
  · rw [hpage]
    by_cases hr : r = bye
    · subst hr
      rw [Function.update_self]
      exact hxd
    · rw [Function.update_of_ne hr]
      rfl
  · rw [hpage]
    by_cases hr : r = bye
    · subst hr
      rw [Function.update_self, hxv]
      simp [hqf]
    · rw [Function.update_of_ne hr]
      refine ⟨fun hv => ⟨hv, fun hf => hr ?_⟩, And.left⟩
      exact h.frame_inj hv hqv (hf.trans hqf.symm)

/-- A vacated frame can be given to a page. -/
theorem Vacated.load (h : a.Inv memsize) (hvac : Vacated frame a a') (hlt : frame < memsize)
    (hinvalid : (a.page p).valid = false) :
    ((a'.load frame p vaddr).touch p write).Inv memsize where
  owned f hf := by
    rw [load_touch_page]
    rw [touch_coremap, load_coremap, hvac.coremap] at hf ⊢
    by_cases hff : f = frame
    · subst hff
      rw [Function.update_self]
      exact ⟨hlt, p, rfl, by rw [Function.update_self], by rw [Function.update_self]⟩
    · rw [Function.update_of_ne hff] at hf ⊢
      obtain ⟨hlt', q, hq, hqv, hqf⟩ := h.owned f hf
      have hqp : q ≠ p := by
        rintro rfl
        exact absurd (hinvalid.symm.trans hqv) (by decide)
      refine ⟨hlt', q, hq, ?_, ?_⟩
      · rw [Function.update_of_ne hqp]
        exact (hvac.valid q).2 ⟨hqv, by rw [hqf]; exact hff⟩
      · rw [Function.update_of_ne hqp, hvac.frame_eq, hqf]
  resident q hq := by
    rw [load_touch_page] at hq ⊢
    rw [touch_coremap, load_coremap, hvac.coremap]
    by_cases hqp : q = p
    · subst hqp
      rw [Function.update_self, Function.update_self]
    · rw [Function.update_of_ne hqp] at hq ⊢
      obtain ⟨hqv, hqf⟩ := (hvac.valid q).1 hq
      rw [hvac.frame_eq, Function.update_of_ne hqf]
      exact h.resident q hqv

theorem Vacated.load_valid (hvac : Vacated frame a a') (q : Ptr) :
    (((a'.load frame p vaddr).touch p write).page q).valid = true ↔
      q = p ∨ (a.page q).valid = true ∧ (a.page q).frame ≠ frame := by
  rw [load_touch_page]
  by_cases hq : q = p
  · subst hq
    rw [Function.update_self]
    simp
  · rw [Function.update_of_ne hq, hvac.valid]
    simp [hq]

theorem Vacated.load_dirty (hvac : Vacated frame a a') (q : Ptr) :
    (((a'.load frame p vaddr).touch p write).page q).dirty =
      if q = p then write else (a.page q).dirty := by
  rw [load_touch_page]
  by_cases hq : q = p
  · subst hq
    rw [Function.update_self, if_pos rfl]
  · rw [Function.update_of_ne hq, if_neg hq, hvac.dirty_eq]

theorem touch_valid (hv : (a.page p).valid = true) (q : Ptr) :
    ((a.touch p write).page q).valid = (a.page q).valid := by
  rw [touch_page]
  by_cases hq : q = p
  · subst hq
    rw [Function.update_self]
    exact hv.symm
  · rw [Function.update_of_ne hq]

theorem touch_frame (q : Ptr) : ((a.touch p write).page q).frame = (a.page q).frame := by
  rw [touch_page]
  by_cases hq : q = p
  · subst hq
    rw [Function.update_self]
  · rw [Function.update_of_ne hq]

theorem touch_dirty (q : Ptr) :
    ((a.touch p write).page q).dirty = ((a.page q).dirty || (decide (q = p) && write)) := by
  rw [touch_page]
  by_cases hq : q = p
  · subst hq
    rw [Function.update_self]
    simp
  · rw [Function.update_of_ne hq]
    simp [hq]

/-- An access to a valid page changes no valid bit and no frame. -/
theorem Pager.Inv.touch (h : a.Inv memsize) (hv : (a.page p).valid = true) :
    (a.touch p write).Inv memsize := by
  refine ⟨fun f hf => ?_, fun q hq => ?_⟩
  · obtain ⟨hlt, q, hq, hqv, hqf⟩ := h.owned f hf
    exact ⟨hlt, q, hq, (touch_valid hv q).trans hqv, (touch_frame q).trans hqf⟩
  · rw [touch_frame, touch_coremap]
    exact h.resident q ((touch_valid hv q).symm.trans hq)

/-- **Every reference keeps the invariant.** -/
theorem Refer.inv (href : Refer memsize io p vaddr write a a') (h : a.Inv memsize) :
    a'.Inv memsize := by
  cases href with
  | hit hv =>
    have hcount : a.countHit.Inv memsize := ⟨h.owned, h.resident⟩
    exact hcount.touch hv
  | free hinvalid hlt hfree => exact (vacated_free h hfree).load h hlt hinvalid
  | evict hinvalid hlt hall hbye hevict =>
    exact (vacated_evict h (hall _ hlt) hbye hevict).load h hlt hinvalid

/-! ## Runs -/

variable {pol : Policy σ} {h : List (Lts.Transition (Sim σ) Reference)} {s s' : Sim σ}

theorem bump_page (p : Ptr) (write : Bool) (a : Pager) : (a.bump p write).page = a.page := by
  unfold bump
  split <;> rfl

theorem bump_coremap (p : Ptr) (write : Bool) (a : Pager) :
    (a.bump p write).coremap = a.coremap := by
  unfold bump
  split <;> rfl

theorem bump_counters (p : Ptr) (write : Bool) (a : Pager) :
    (a.bump p write).counters = a.counters := by
  unfold bump
  split <;> rfl

theorem inv_step (hok : pol.Ok memsize) (hmem : memsize ≤ 2 ^ 19) {r : Reference}
    (hinv : s.pager.Inv memsize) (hs : step pol memsize s r s') : s'.pager.Inv memsize := by
  obtain ⟨p, a', -, href, heq⟩ := step_refer hok hmem hs
  have hinv' := href.inv hinv
  rw [heq]
  refine ⟨?_, ?_⟩ <;> rw [bump_page, bump_coremap]
  · exact hinv'.owned
  · exact hinv'.resident

theorem start_pager {swapsize : BitVec 32} {physmem file : Bytes.Mem} {policy : σ}
    (hs : start swapsize physmem file policy = some s) :
    (∀ q, s.pager.page q = PgtblEntry.fresh.page) ∧ s.pager.coremap = (fun _ => ⟨false, none⟩) ∧
      s.pager.counters = ⟨0, 0, 0, 0, 0⟩ := by
  obtain ⟨swap, -, rfl⟩ := Option.map_eq_some_iff.1 hs
  exact ⟨fun _ => rfl, rfl, rfl⟩

theorem inv_start {swapsize : BitVec 32} {physmem file : Bytes.Mem} {policy : σ}
    (hs : start swapsize physmem file policy = some s) : s.pager.Inv memsize := by
  obtain ⟨hpage, hcore, -⟩ := start_pager hs
  refine ⟨fun f hf => ?_, fun q hq => ?_⟩
  · rw [hcore] at hf
    cases hf
  · rw [hpage] at hq
    exact absurd hq (by decide)

/-- **The invariant holds after every reference.** -/
theorem Run.inv (hok : pol.Ok memsize) (hmem : memsize ≤ 2 ^ 19) (hr : Run pol memsize h s) :
    s.pager.Inv memsize := by
  obtain ⟨swapsize, physmem, file, policy, s₀, hs₀, hr⟩ := hr
  exact Lts.Run.invariant (I := fun s => s.pager.Inv memsize) (inv_start hs₀)
    (fun _ _ _ hinv hs => inv_step hok hmem hinv hs) hr

/-! ## In the program's terms -/

/-- `PG_VALID` is set. -/
def PgtblEntry.Valid (e : PgtblEntry) : Prop := e.frame &&& pgValid ≠ 0

/-- `frame >> PAGE_SHIFT` -/
def PgtblEntry.frameNo (e : PgtblEntry) : ℕ := (e.frame >>> pageShift).toNat

theorem PgtblEntry.valid_iff {e : PgtblEntry} : e.Valid ↔ e.page.valid = true := by
  unfold Valid
  rw [ne_eq, and_pgValid, Bool.not_eq_false]

/-- As it serves `r` from `s`, `find_physpage` calls the policy to make room for the page of `p`.
The state of the call is `s.missed p`. -/
structure EvictCall (memsize : ℕ) (s : Sim σ) (r : Reference) (p : Ptr) : Prop where
  entry : entryOf r.vaddr = some p
  miss : ¬ (s.entry p).Valid
  full : ∀ i < memsize, (s.coremap i).inUse = true

/-- **There is no other call**: policies that agree on it are not told apart. -/
theorem findPhyspage_congr {pol pol' : Policy σ} {s : Sim σ} {r : Reference}
    (href : pol.ref = pol'.ref)
    (hevict : ∀ p, EvictCall memsize s r p → pol.evict (s.missed p) = pol'.evict (s.missed p)) :
    findPhyspage pol memsize r.io r.vaddr r.type s =
      findPhyspage pol' memsize r.io r.vaddr r.type s := by
  cases hp : entryOf r.vaddr with
  | none =>
    have hdir : dirOf r.vaddr = none := Option.map_eq_none_iff.1 hp
    unfold findPhyspage
    rw [hdir]
  | some p =>
    rw [findPhyspage_eq hp, findPhyspage_eq hp, href]
    by_cases hv : (s.entry p).Valid
    · rw [if_neg hv, if_neg hv]
    · rw [if_pos (not_not.1 hv), if_pos (not_not.1 hv)]
      congr 1
      unfold loadPage allocateFrame
      cases hfind : (List.range memsize).find? fun i => !((s.missed p).coremap i).inUse with
      | some frame => rfl
      | none =>
        have hfull : ∀ i < memsize, (s.coremap i).inUse = true := by
          intro i hi
          simpa using List.find?_eq_none.1 hfind i (List.mem_range.2 hi)
        rw [hevict p ⟨hp, hv, hfull⟩]

/-- Frames in use and valid page-table entries match one to one. -/
structure Bijection (memsize : ℕ) (s : Sim σ) : Prop where
  inUse_iff : ∀ f < memsize, (s.coremap f).inUse = true ↔
    ∃ q, (s.entry q).Valid ∧ (s.entry q).frameNo = f
  frame_lt : ∀ q, (s.entry q).Valid → (s.entry q).frameNo < memsize
  pte : ∀ q, (s.entry q).Valid → (s.coremap (s.entry q).frameNo).pte = some q
  unique : ∀ q q', (s.entry q).Valid → (s.entry q').Valid →
    (s.entry q).frameNo = (s.entry q').frameNo → q = q'

theorem Pager.Inv.bijection (h : s.pager.Inv memsize) : Bijection memsize s where
  inUse_iff f _ := by
    constructor
    · intro hf
      obtain ⟨-, q, -, hqv, hqf⟩ := h.owned f hf
      exact ⟨q, PgtblEntry.valid_iff.2 hqv, hqf⟩
    · rintro ⟨q, hqv, rfl⟩
      have hres := h.resident q (PgtblEntry.valid_iff.1 hqv)
      exact congrArg Frame.inUse hres
  frame_lt q hq := h.frame_lt (PgtblEntry.valid_iff.1 hq)
  pte q hq := congrArg Frame.pte (h.resident q (PgtblEntry.valid_iff.1 hq))
  unique q q' hq hq' heq :=
    h.frame_inj (PgtblEntry.valid_iff.1 hq) (PgtblEntry.valid_iff.1 hq') heq

/-- **Frames and pages match after every completed `find_physpage`**, and the pointer returned is
the start of the frame of the page just referenced. -/
theorem findPhyspage_bijection (hok : pol.Ok memsize) (hmem : memsize ≤ 2 ^ 19)
    (hr : Run pol memsize h s) {io : Io} {vaddr : BitVec 64} {type : Char} {ptr : BitVec 32}
    (hfind : findPhyspage pol memsize io vaddr type s = some (ptr, s')) :
    Bijection memsize s' ∧ ∃ p, entryOf vaddr = some p ∧ (s'.entry p).Valid ∧
      ptr.toNat = (s'.entry p).frameNo * simpagesize := by
  obtain ⟨p, hp, href, hvalid, rfl⟩ := findPhyspage_refer hok hmem hfind
  have hinv := href.inv (hr.inv hok hmem)
  refine ⟨hinv.bijection, p, hp, PgtblEntry.valid_iff.2 hvalid, ?_⟩
  have hlt := hinv.frame_lt hvalid
  rw [BitVec.toNat_ofNat]
  show (s'.pager.page p).frame * 16 % 2 ^ 32 = (s'.pager.page p).frame * 16
  omega

/-- With one frame and the fifo policy: a write to page 0, and a read of page 1 that evicts it. -/
theorem findPhyspage_bijection_evict :
    ∃ s ptr s', replay (fifo 1) 1 [⟨'S', 0, Io.whole⟩] (exStart 0) = some s ∧
      findPhyspage (fifo 1) 1 Io.whole 0x1000 'L' s = some (ptr, s') ∧ Bijection 1 s' ∧
      ∃ p, entryOf 0x1000 = some p ∧ (s'.entry p).Valid ∧
        ptr.toNat = (s'.entry p).frameNo * simpagesize := by
  obtain ⟨⟨s, ptr, s'⟩, hs⟩ : ∃ r, ((replay (fifo 1) 1 [⟨'S', 0, Io.whole⟩] (exStart 0)).bind
      fun s => (findPhyspage (fifo 1) 1 Io.whole 0x1000 'L' s).map fun r => (s, r)) = some r :=
    Option.isSome_iff_exists.1 (by decide)
  obtain ⟨s₁, hreplay, hs⟩ := Option.bind_eq_some_iff.1 hs
  obtain ⟨r, hfind, heq⟩ := Option.map_eq_some_iff.1 hs
  obtain ⟨rfl, rfl⟩ := Prod.mk.inj heq
  obtain ⟨h, hr⟩ := replay_run (exStart_start 0) hreplay
  exact ⟨_, _, _, hreplay, hfind, findPhyspage_bijection (fifo_ok 1) (by decide) hr.1 hfind⟩

end Cscc69.Paging
