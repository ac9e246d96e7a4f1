import Cscc69.Paging.Contents
import Cscc69.Paging.DataPolicy

/-!
# When a page-out fails

`swap_pageout` can fail at three places: no slot is free, the seek fails, or the write is short.
`allocate_frame` goes on all the same, and the victim's entry becomes invalid. What is left of the
page is what the entry says about the swap file, if it says anything; and a slot that was taken for
the page stays taken.

So nothing is lost (`Lossless`) just if the entry has a slot already and the slot holds the bytes
that the failed write did not bring there (`lossless_iff`). In a run of the simulator the entry of
a resident page never has `PG_ONSWAP`, which `find_physpage` overwrites when it loads the page, and
every failed page-out loses its page (`pageout_loses`).
-/

namespace Cscc69.Paging

open Bytes Pager

variable {σ : Type*} {memsize frame : ℕ} {io : Transfer} {p bye : Ptr} {s s₁ s' : Sim σ}
  {pol : Policy σ} {sw sw' : Swap}

/-- The offset that the entry hands to the swap functions, as an `int`. -/
def PgtblEntry.offset (e : PgtblEntry) : BitVec 32 := e.swapOff.setWidth 32

/-- The entry leads to these bytes, in memory or in the swap file. -/
def Holds (s : Sim σ) (q : Ptr) (contents : ℕ → UInt8) : Prop :=
  ((s.entry q).Valid ∧ ∀ i < simpagesize,
    s.physmem ((s.entry q).frameNo * simpagesize + i) = contents i) ∨
  ((s.entry q).frame &&& pgOnswap ≠ 0 ∧ 0 ≤ (s.entry q).offset.toInt ∧ ∀ i < simpagesize,
    s.swap.file ((s.entry q).offset.toNat + i) = contents i)

/-- From `s` to `s'` no slot was taken, and the page of `bye` in `frame` can still be found. -/
structure Lossless (s s' : Sim σ) (frame : ℕ) (bye : Ptr) : Prop where
  map : s'.swap.map = s.swap.map
  holds : Holds s' bye fun i => s.physmem (frame * simpagesize + i)

/-- The bytes that reach the file. -/
def Transfer.written (io : Transfer) : ℕ := if io.seekErrno.isSome then 0 else io.count

/-- The entry of `bye` has a slot, and the slot holds the bytes of `frame` but for those that the
transfer writes. -/
def Stored (io : Transfer) (s : Sim σ) (frame : ℕ) (bye : Ptr) : Prop :=
  (s.entry bye).frame &&& pgOnswap ≠ 0 ∧ 0 ≤ (s.entry bye).offset.toInt ∧
    ∀ i < simpagesize, io.written ≤ i →
      s.swap.file ((s.entry bye).offset.toNat + i) = s.physmem (frame * simpagesize + i)

/-! ## The failed call -/

/-- **A failed page-out to a slot that the page has**: no slot is taken, and some first bytes are
written. -/
theorem swapPageout_fails {physmem : Mem} {offset : BitVec 32} (hoff : 0 ≤ offset.toInt)
    (h : swapPageout io physmem frame offset sw = some (invalidSwap, sw')) :
    sw'.map = sw.map ∧ ∀ i < simpagesize, sw'.file (offset.toNat + i) =
      if i < io.written then physmem (frame * simpagesize + i) else sw.file (offset.toNat + i) := by
  have hne : offset ≠ invalidSwap := by
    rintro rfl
    exact absurd hoff (by decide)
  have hslot : swapSlot offset sw = some (some (offset, sw)) := if_neg hne
  have hseek : io.lseek offset = io.seekErrno := if_neg (not_lt.2 hoff)
  unfold swapPageout at h
  rw [hslot] at h
  dsimp only at h
  rw [if_neg hne, hseek] at h
  unfold Transfer.written
  split at h
  · rename_i hfail
    obtain ⟨-, rfl⟩ := Prod.mk.inj (Option.some.inj h)
    rw [if_pos hfail]
    exact ⟨rfl, fun i _ => rfl⟩
  · rename_i hfail
    rw [if_neg hfail]
    split at h
    · obtain ⟨-, rfl⟩ := Prod.mk.inj (Option.some.inj h)
      refine ⟨rfl, fun i _ => ?_⟩
      show copy sw.file offset.toNat physmem (frame * simpagesize) io.count _ = _
      unfold copy
      rw [Nat.add_sub_cancel_left]
      split
      · rename_i hin
        rw [if_pos (by omega)]
      · rename_i hout
        rw [if_neg (by omega)]
    · obtain ⟨heq, -⟩ := Prod.mk.inj (Option.some.inj h)
      exact absurd heq hne

/-- What `allocate_frame` makes of it: the victim's page is not valid any more. -/
theorem allocateFrame_fails (hall : ∀ i < memsize, (s.coremap i).inUse = true)
    (hev : pol.evict s = some (frame, s₁)) (honly : OnlyRef s s₁)
    (hbye : (s.coremap frame).pte = some bye) (hdirty : (s.entry bye).frame &&& pgDirty ≠ 0)
    (hfail : swapPageout io s.physmem frame (s.entry bye).offset s.swap =
      some (invalidSwap, sw)) :
    ∃ s', allocateFrame pol memsize io p s = some (frame, s') ∧ s'.swap = sw ∧
      s'.physmem = s.physmem ∧ ¬ (s'.entry bye).Valid ∧
      ((s'.entry bye).frame &&& pgOnswap ≠ 0 ↔ (s.entry bye).frame &&& pgOnswap ≠ 0) ∧
      (s'.entry bye).offset = (s.entry bye).offset := by
  have hout : s.pager.evictFrame io frame bye = some (({ s.pager with
      counters := s.pager.counters.countDirty, swap := sw } : Pager).setPage bye
        { s.pager.page bye with valid := false }) := by
    have hd : ¬ (s.pager.page bye).dirty = false := mt and_pgDirty.2 hdirty
    unfold Pager.evictFrame
    rw [if_neg hd, show swapPageout io s.pager.physmem frame
      ((s.pager.page bye).swapOff.setWidth 32) s.pager.swap = _ from hfail]
    rfl
  have hevict := evictFrame_pager io frame bye s₁
  rw [honly.pager, hout] at hevict
  obtain ⟨s₂, hs₂, hpager⟩ := Option.map_eq_some_iff.1 hevict
  refine ⟨s₂.claim frame p, ?_, congrArg Pager.swap hpager, congrArg Pager.physmem hpager, ?_⟩
  · unfold allocateFrame
    rw [find_none hall]
    dsimp only
    rw [hev]
    dsimp only
    rw [honly.coremap, hbye]
    dsimp only
    rw [hs₂]
    rfl
  · have hpage : (s₂.entry bye).page = { (s.entry bye).page with valid := false } := by
      have hpage := congrFun (congrArg Pager.page hpager) bye
      exact hpage.trans (Function.update_self _ _ _)
    have hentry : (s₂.claim frame p).entry bye = s₂.entry bye := rfl
    rw [hentry, PgtblEntry.valid_iff, ne_eq, ne_eq, and_pgOnswap, and_pgOnswap, hpage]
    exact ⟨Bool.false_ne_true, Iff.rfl, congrArg (BitVec.setWidth 32)
      (congrArg Page.swapOff hpage)⟩

/-- **A failed page-out loses nothing** just if the page has a slot, and the slot holds what is not
written. -/
theorem lossless_iff (hall : ∀ i < memsize, (s.coremap i).inUse = true)
    (hev : pol.evict s = some (frame, s₁)) (honly : OnlyRef s s₁)
    (hbye : (s.coremap frame).pte = some bye) (hdirty : (s.entry bye).frame &&& pgDirty ≠ 0)
    (hfail : swapPageout io s.physmem frame (s.entry bye).offset s.swap =
      some (invalidSwap, sw)) :
    ∃ s', allocateFrame pol memsize io p s = some (frame, s') ∧
      (Lossless s s' frame bye ↔ Stored io s frame bye) := by
  obtain ⟨s', halloc, hswap, -, hvalid, honswap, hoffset⟩ :=
    allocateFrame_fails (p := p) hall hev honly hbye hdirty hfail
  refine ⟨s', halloc, ?_⟩
  have hholds : Holds s' bye (fun i => s.physmem (frame * simpagesize + i)) ↔
      (s.entry bye).frame &&& pgOnswap ≠ 0 ∧ 0 ≤ (s.entry bye).offset.toInt ∧
        ∀ i < simpagesize, sw.file ((s.entry bye).offset.toNat + i) =
          s.physmem (frame * simpagesize + i) := by
    unfold Holds
    rw [honswap, hoffset, hswap]
    simp [hvalid]
  constructor
  · rintro ⟨-, hlost⟩
    obtain ⟨hon, hoff, hfile⟩ := hholds.1 hlost
    obtain ⟨-, hwritten⟩ := swapPageout_fails hoff hfail
    refine ⟨hon, hoff, fun i hi hle => ?_⟩
    rw [← hfile i hi, hwritten i hi, if_neg (not_lt.2 hle)]
  · rintro ⟨hon, hoff, hfile⟩
    obtain ⟨hmap, hwritten⟩ := swapPageout_fails hoff hfail
    refine ⟨by rw [hswap, hmap], hholds.2 ⟨hon, hoff, fun i hi => ?_⟩⟩
    rw [hwritten i hi]
    split
    · rfl
    · rename_i hge
      exact hfile i hi (not_lt.1 hge)

/-- A reference whose page-out fails at the seek. -/
def exFailing : Transfer := ⟨some einval, none⟩

/-- One frame with a written page, and a page-out that fails at the seek. -/
theorem lossless_iff_one : ∃ (s : Sim (Fin 1)) (sw : Swap),
    swapPageout exFailing s.physmem 0 (s.entry exPage).offset s.swap = some (invalidSwap, sw) ∧
    ∃ s', allocateFrame (fifo 1) 1 exFailing exPage s = some (0, s') ∧
      ¬ Lossless s s' 0 exPage := by
  obtain ⟨s, -, hs⟩ : ∃ s : Sim (Fin 1),
      replay (fifo 1) 1 [⟨'S', 0, Io.whole⟩] (exStart 0) = some s ∧
      decide ((∀ i < (1 : ℕ), (s.coremap i).inUse = true) ∧ (s.coremap 0).pte = some exPage ∧
        (s.entry exPage).frame &&& pgDirty ≠ 0 ∧ (s.entry exPage).frame &&& pgOnswap = 0 ∧
        (swapPageout exFailing s.physmem 0 (s.entry exPage).offset s.swap).map Prod.fst =
          some invalidSwap) = true :=
    (Option.any_eq_true ..).1 (by decide)
  obtain ⟨hall, hbye, hdirty, honswap, hfail⟩ := of_decide_eq_true hs
  obtain ⟨⟨offset, sw⟩, hfail, rfl⟩ := Option.map_eq_some_iff.1 hfail
  have hev : (fifo 1).evict s = some (0, _) :=
    congrArg (fun i : Fin 1 => some ((i : ℕ), _)) (Subsingleton.elim s.policy 0)
  obtain ⟨s', halloc, hiff⟩ :=
    lossless_iff (p := exPage) hall hev ((fifo_ok 1).evict hev) hbye hdirty hfail
  exact ⟨s, sw, hfail, s', halloc, fun h => (hiff.1 h).1 honswap⟩

/-- **A slot is lost** with it: the bit of the first slot is set, and no entry has the slot. -/
theorem failed_seek_takes_slot : ∃ (s s' : Sim (Fin 1)),
    (∀ i < 1, (s.coremap i).inUse = true) ∧ (s.entry exPage).frame &&& pgDirty ≠ 0 ∧
    (swapPageout exFailing s.physmem 0 (s.entry exPage).offset s.swap).map Prod.fst =
      some invalidSwap ∧
    allocateFrame (fifo 1) 1 exFailing exPage s = some (0, s') ∧ ¬ Lossless s s' 0 exPage := by
  obtain ⟨s, -, hs⟩ : ∃ s : Sim (Fin 1),
      replay (fifo 1) 1 [⟨'S', 0, Io.whole⟩] (exStart 0) = some s ∧
      decide (((∀ i < (1 : ℕ), (s.coremap i).inUse = true) ∧
        (s.entry exPage).frame &&& pgDirty ≠ 0 ∧
        (swapPageout exFailing s.physmem 0 (s.entry exPage).offset s.swap).map Prod.fst =
          some invalidSwap) ∧
        (allocateFrame (fifo 1) 1 exFailing exPage s).any (fun x =>
          decide (x.1 = 0 ∧ x.2.swap.map.v 0 ≠ s.swap.map.v 0)) = true) = true :=
    (Option.any_eq_true ..).1 (by decide)
  obtain ⟨⟨hall, hdirty, hfail⟩, hany⟩ := of_decide_eq_true hs
  obtain ⟨⟨frame, s'⟩, halloc, hx⟩ := (Option.any_eq_true ..).1 hany
  obtain ⟨rfl, hne⟩ := of_decide_eq_true hx
  refine ⟨s, s', hall, hdirty, hfail, halloc, fun hloss => hne ?_⟩
  rw [hloss.map]

/-! ## In a run -/

/-- No reference leaves `PG_ONSWAP` in the entry of a resident page. -/
theorem Refer.not_onswap {vaddr : BitVec 64} {write : Bool} {a a' : Pager}
    (href : Refer memsize io p vaddr write a a')
    (h : ∀ q, (a.page q).valid = true → (a.page q).onswap = false) :
    ∀ q, (a'.page q).valid = true → (a'.page q).onswap = false := by
  have hload : ∀ (b : Pager) (f : ℕ),
      (∀ q, (b.page q).valid = true → (b.page q).onswap = false) → ∀ q,
      (((b.load f p vaddr).touch p write).page q).valid = true →
        (((b.load f p vaddr).touch p write).page q).onswap = false := by
    intro b f hb q hq
    rw [load_touch_page] at hq ⊢
    by_cases hqp : q = p
    · rw [hqp, Function.update_self]
    · rw [Function.update_of_ne hqp] at hq ⊢
      exact hb q hq
  cases href with
  | hit hv =>
    intro q hq
    rw [touch_page] at hq ⊢
    by_cases hqp : q = p
    · rw [hqp, Function.update_self]
      exact h p hv
    · rw [Function.update_of_ne hqp] at hq ⊢
      exact h q hq
  | free _ _ _ => exact hload _ _ h
  | @evict frame bye a₁ _ _ _ _ hevict =>
    obtain ⟨-, -, -, x, hpage, hxv, -⟩ := evictFrame_some hevict
    refine hload _ _ fun q hq => ?_
    rw [hpage] at hq ⊢
    by_cases hqb : q = bye
    · rw [hqb, Function.update_self, hxv] at hq
      cases hq
    · rw [Function.update_of_ne hqb] at hq ⊢
      exact h q hq

theorem Run.not_onswap {h : List (Lts.Transition (Sim σ) Reference)} (hok : pol.Ok memsize)
    (hmem : memsize ≤ 2 ^ 19) (hr : Run pol memsize h s) :
    ∀ q, (s.pager.page q).valid = true → (s.pager.page q).onswap = false := by
  obtain ⟨swapsize, physmem, file, policy, s₀, hs₀, hr⟩ := hr
  refine Lts.Run.invariant
    (I := fun s => ∀ q, (s.pager.page q).valid = true → (s.pager.page q).onswap = false)
    (fun q hq => ?_) (fun s r s' hI hs => ?_) hr
  · rw [(start_pager hs₀).1] at hq
    exact absurd hq (by decide)
  · obtain ⟨p, a', -, href, heq⟩ := step_refer hok hmem hs
    rw [heq, bump_page]
    exact href.not_onswap hI

/-- **In a run every failed page-out loses the page.** -/
theorem pageout_loses {h : List (Lts.Transition (Sim σ) Reference)} {r : Reference}
    (hok : pol.Ok memsize) (hmem : memsize ≤ 2 ^ 19) (hr : Run pol memsize h s)
    (hcall : EvictCall memsize s r p) (hev : pol.evict (s.missed p) = some (frame, s₁))
    (hbye : (s.coremap frame).pte = some bye) (hdirty : (s.entry bye).frame &&& pgDirty ≠ 0)
    (hfail : swapPageout io (s.missed p).physmem frame (s.entry bye).offset (s.missed p).swap =
      some (invalidSwap, sw)) :
    ∃ s', allocateFrame pol memsize io p (s.missed p) = some (frame, s') ∧
      ¬ Lossless (s.missed p) s' frame bye := by
  have hinv := hr.inv hok hmem
  have hlt := hok.evict_lt hev
  have hbye' : ((s.missed p).coremap frame).pte = some bye := by rw [missed_coremap, hbye]
  obtain ⟨s', halloc, hiff⟩ := lossless_iff (p := p) (by simpa using hcall.full) hev
    (hok.evict hev) hbye' (by simpa using hdirty) (by simpa using hfail)
  refine ⟨s', halloc, fun hloss => ?_⟩
  obtain ⟨hon, -⟩ := hiff.1 hloss
  obtain ⟨-, q, hq, hv, -⟩ := hinv.owned frame (hcall.full frame hlt)
  obtain rfl : bye = q := Option.some.inj (hbye.symm.trans hq)
  rw [missed_entry, ne_eq, and_pgOnswap] at hon
  exact hon (hr.not_onswap hok hmem bye hv)

end Cscc69.Paging
