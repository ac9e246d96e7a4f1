import Cscc69.Lib.Caching
import Cscc69.Paging.DataPolicy
import Cscc69.Paging.Statistics

/-!
# The simulator as a demand pager

Under any policy the resident pages are a cache that is served on demand: a page is loaded when it
is referenced, and a page goes only when a reference finds all frames in use (`Refer.demand`). A
trace that is replayed to its end serves the list of its pages, and `miss_count` is the number of
misses (`replay_serves`).

`Tracked` is what every reference keeps of the past: the pages in memory were referenced before,
and the newest page is in memory.
-/

namespace Cscc69.Paging

open Caching Pager

variable {σ : Type*} {memsize frame : ℕ} {past : List Ptr} {a a' a₁ : Pager} {io : Transfer}
  {p : Ptr} {vaddr : BitVec 64} {write : Bool}

/-! ## Pages of a trace -/

/-- The pages that are referenced. -/
def pages (rs : List Reference) : List Ptr := rs.filterMap fun r => entryOf r.vaddr

theorem pages_cons {r : Reference} (hp : entryOf r.vaddr = some p) (rs : List Reference) :
    pages (r :: rs) = p :: pages rs := List.filterMap_cons_some hp

theorem pages_append {r : Reference} (hp : entryOf r.vaddr = some p) (rs : List Reference) :
    pages (rs ++ [r]) = pages rs ++ [p] := by
  unfold pages
  rw [List.filterMap_append]
  simp [hp]

/-! ## What every reference keeps -/

/-- The pages in memory were referenced before, the newest of them last; `past` has the newest
page first. -/
structure Tracked (memsize : ℕ) (past : List Ptr) (a : Pager) : Prop where
  inv : a.Inv memsize
  packed : a.swap.map.Packed
  known : ∀ q, (a.page q).valid = true → q ∈ past
  newest : ∀ q, past.head? = some q → (a.page q).valid = true

theorem evictFrame_packed {bye : Ptr} {a' : Pager} (hpacked : a.swap.map.Packed)
    (h : a.evictFrame io frame bye = some a') : a'.swap.map.Packed := by
  unfold Pager.evictFrame at h
  split at h
  · cases h
    exact hpacked
  · obtain ⟨⟨offset, sw⟩, hout, rfl⟩ := Option.map_eq_some_iff.1 h
    exact (swapPageout_some hpacked hout).1.packed hpacked

theorem Refer.packed (h : Refer memsize io p vaddr write a a₁) (hpacked : a.swap.map.Packed) :
    a₁.swap.map.Packed := by
  cases h with
  | hit _ => exact hpacked
  | free _ _ _ => exact hpacked
  | evict _ _ _ _ hout =>
    have hpacked' := evictFrame_packed (a := a.countMiss) hpacked hout
    exact hpacked'

/-- A reference makes no page valid but its own. -/
theorem Refer.valid_or (h : Refer memsize io p vaddr write a a₁) (hinv : a.Inv memsize) {q : Ptr}
    (hq : (a₁.page q).valid = true) : q = p ∨ (a.page q).valid = true := by
  cases h with
  | hit hv => exact .inr ((touch_valid (a := a.countHit) hv q).symm.trans hq)
  | free hv _ hfree => exact (((vacated_free hinv hfree).load_valid q).1 hq).imp_right And.left
  | evict hv hlt hall hbye hout =>
    exact (((vacated_evict hinv (hall _ hlt) hbye hout).load_valid q).1 hq).imp_right And.left

theorem Tracked.refer (h : Tracked memsize past a) (href : Refer memsize io p vaddr write a a₁) :
    Tracked memsize (p :: past) a₁ where
  inv := href.inv h.inv
  packed := href.packed h.packed
  known q hq := by
    obtain rfl | hq := href.valid_or h.inv hq
    · exact List.mem_cons_self
    · exact List.mem_cons_of_mem p (h.known q hq)
  newest q hq := by
    obtain rfl := Option.some.inj hq
    exact href.valid

theorem Tracked.bump (h : Tracked memsize past a) (p : Ptr) (write : Bool) :
    Tracked memsize past (a.bump p write) := by
  have hswap : (a.bump p write).swap = a.swap := by
    unfold Pager.bump
    cases write
    · rfl
    · rfl
  refine ⟨⟨?_, ?_⟩, ?_, ?_, ?_⟩
  · rw [bump_coremap, bump_page]
    exact h.inv.owned
  · rw [bump_coremap, bump_page]
    exact h.inv.resident
  · rw [hswap]
    exact h.packed
  · rw [bump_page]
    exact h.known
  · rw [bump_page]
    exact h.newest

theorem start_tracked {swapsize : BitVec 32} {physmem file : Bytes.Mem} {policy : σ}
    {s₀ : Sim σ} (hs₀ : start swapsize physmem file policy = some s₀) :
    Tracked memsize [] s₀.pager := by
  obtain ⟨hpage, -, -⟩ := start_pager hs₀
  refine ⟨inv_start hs₀, (start_slots hs₀).packed, fun q hq => ?_, fun q hq => ?_⟩
  · rw [hpage] at hq
    exact absurd hq (by decide)
  · cases hq

/-! ## References that are served -/

variable {pol : Policy σ} {s : Sim σ} {r : Reference}

theorem loadPage_isSome (hok : pol.Ok memsize) (hmem : memsize ≤ 2 ^ 19)
    (hinv : s.pager.Inv memsize) (hpacked : s.swap.map.Packed) (io : Io)
    (hev : (∀ i < memsize, (s.coremap i).inUse = true) → ∃ x, pol.evict s = some x) :
    ∃ s', loadPage pol memsize io vaddr p s = some s' := by
  obtain ⟨⟨frame, s₁⟩, halloc⟩ : ∃ x, allocateFrame pol memsize io.pageout p s = some x := by
    unfold allocateFrame
    rcases find_free (rfl : ((List.range memsize).find? fun i => !(s.coremap i).inUse) = _) with
      ⟨f, hf, -⟩ | ⟨hnone, hall⟩
    · rw [hf]
      exact ⟨_, rfl⟩
    · obtain ⟨⟨f, s₁⟩, hs₁⟩ := hev hall
      have hpager : s₁.pager = s.pager := (hok.evict hs₁).pager
      obtain ⟨-, bye, hbye, -⟩ := hinv.owned f (hall f (hok.evict_lt hs₁))
      obtain ⟨a', hout⟩ := evictFrame_isSome (a := s₁.pager) (by rw [hpager]; exact hpacked)
        io.pageout f bye
      rw [← evictFrame_pager] at hout
      obtain ⟨s₂, hs₂, -⟩ := Option.map_eq_some_iff.1 hout
      have hpte : (s₁.coremap f).pte = some bye := by
        rw [(hok.evict hs₁).coremap]
        exact hbye
      rw [hnone]
      dsimp only
      rw [hs₁]
      dsimp only
      rw [hpte]
      dsimp only
      rw [hs₂]
      exact ⟨_, rfl⟩
  have hlt := (allocateFrame_cases hok halloc).1
  have honswap : ¬ ((s₁.setFrame p (frameWord (BitVec.ofNat 32 frame))).entry p).frame &&&
      pgOnswap ≠ 0 := by
    rw [not_not, and_pgOnswap, ← pager_page, pager_setFrame, page_set_frame _ (by omega),
      setPage_page]
  unfold loadPage
  rw [halloc]
  dsimp only
  rw [if_neg honswap]
  exact ⟨_, rfl⟩

/-- **A reference is served** if the policy returns. -/
theorem accessMem_isSome (hok : pol.Ok memsize) (hmem : memsize ≤ 2 ^ 19)
    (ht : Tracked memsize past s.pager) (hp : entryOf r.vaddr = some p)
    (hev : EvictCall memsize s r p → ∃ x, pol.evict (s.missed p) = some x)
    (href : ∀ s₁, pol.Placed memsize r.io.pageout p r.vaddr (decide (Writes r.type)) s s₁ →
      ∃ s₂, pol.ref p s₁ = some s₂) : ∃ s', step pol memsize s r s' := by
  obtain ⟨s₁, hfound⟩ : ∃ s₁, (if (s.entry p).frame &&& pgValid = 0 then
      loadPage pol memsize r.io r.vaddr p (s.missed p) else some (s.found p)) = some s₁ := by
    split
    · rename_i hinvalid
      refine loadPage_isSome hok hmem ?_ ?_ r.io fun hall => hev ⟨hp, not_not.2 hinvalid, ?_⟩
      · rw [missed_pager]
        exact ⟨ht.inv.owned, ht.inv.resident⟩
      · have hswap : (s.missed p).pager.swap = s.pager.swap := by rw [missed_pager]; rfl
        rw [show (s.missed p).swap = s.swap from hswap]
        exact ht.packed
      · simpa using hall
    · exact ⟨_, rfl⟩
  obtain ⟨s₂, hs₂⟩ := href _ (placed_access hok hmem hfound r.type)
  have hfind : findPhyspage pol memsize r.io r.vaddr r.type s = _ := findPhyspage_eq hp
  rw [hfound, Option.bind_some, hs₂, Option.map_some] at hfind
  unfold step accessMem
  rw [hfind, Option.map_some]
  dsimp only
  split
  · exact ⟨_, _, rfl⟩
  · exact ⟨_, _, rfl⟩

/-! ## Resident pages -/

/-- The pages in memory. -/
noncomputable def resident (a : Pager) : Finset Ptr :=
  (Set.toFinite {q | (a.page q).valid = true}).toFinset

@[simp] theorem mem_resident {q : Ptr} : q ∈ resident a ↔ (a.page q).valid = true :=
  Set.Finite.mem_toFinset _

/-- There are as many as frames in use. -/
theorem card_resident (hinv : a.Inv memsize) :
    (resident a).card = framesInUse memsize a.coremap := by
  refine Finset.card_bij (fun q _ => (a.page q).frame) (fun q hq => ?_) (fun q hq q' hq' heq => ?_)
    fun f hf => ?_
  · have hv := mem_resident.1 hq
    refine Finset.mem_filter.2 ⟨Finset.mem_range.2 (hinv.frame_lt hv), ?_⟩
    rw [hinv.resident q hv]
  · exact hinv.frame_inj (mem_resident.1 hq) (mem_resident.1 hq') heq
  · obtain ⟨-, q, -, hv, hqf⟩ := hinv.owned f (Finset.mem_filter.1 hf).2
    exact ⟨q, mem_resident.2 hv, hqf⟩

theorem framesInUse_full {coremap : ℕ → Frame} (hall : ∀ i < memsize, (coremap i).inUse = true) :
    framesInUse memsize coremap = memsize := by
  unfold framesInUse
  rw [Finset.filter_true_of_mem fun i hi => hall i (Finset.mem_range.1 hi), Finset.card_range]

theorem framesInUse_lt {coremap : ℕ → Frame} (hlt : frame < memsize)
    (hfree : (coremap frame).inUse = false) : framesInUse memsize coremap < memsize := by
  have hsub : ((Finset.range memsize).filter fun f => (coremap f).inUse = true) ⊂
      Finset.range memsize := by
    refine Finset.filter_ssubset.2 ⟨frame, Finset.mem_range.2 hlt, ?_⟩
    rw [hfree]
    exact Bool.false_ne_true
  have hcard := Finset.card_lt_card hsub
  rwa [Finset.card_range] at hcard

/-- What a load leaves in memory. -/
theorem Vacated.load_resident (hvac : Vacated frame a a') :
    resident ((a'.load frame p vaddr).touch p write) =
      insert p ((resident a).filter fun q => (a.page q).frame ≠ frame) := by
  ext q
  simp [hvac.load_valid]

/-- **A reference serves a request**: a hit, a load into free space, or a load in place of the page
that had the frame. -/
theorem Refer.demand (h : Refer memsize io p vaddr write a a') (hinv : a.Inv memsize) :
    (p ∈ resident a ∧ resident a' = resident a ∧ a'.counters.miss = a.counters.miss) ∨
    (p ∉ resident a ∧ (resident a).card < memsize ∧ resident a' = insert p (resident a) ∧
      a'.counters.miss = a.counters.miss + 1) ∨
    (p ∉ resident a ∧ (resident a).card = memsize ∧ ∃ v ∈ resident a,
      (a.page v).frame = (a'.page p).frame ∧ resident a' = insert p ((resident a).erase v) ∧
      a'.counters.miss = a.counters.miss + 1) := by
  cases h with
  | hit hv =>
    refine .inl ⟨mem_resident.2 hv, ?_, rfl⟩
    ext q
    rw [mem_resident, mem_resident]
    exact iff_of_eq (congrArg (· = true) (touch_valid (a := a.countHit) hv q))
  | @free frame hv hlt hfree =>
    refine .inr (.inl ⟨by simp [hv], ?_, ?_, rfl⟩)
    · rw [card_resident hinv]
      exact framesInUse_lt hlt hfree
    · rw [(vacated_free hinv hfree).load_resident, Finset.filter_true_of_mem fun q hq => ?_]
      rintro rfl
      rw [hinv.resident q (mem_resident.1 hq)] at hfree
      cases hfree
  | @evict frame bye a₁ hv hlt hall hbye hout =>
    obtain ⟨-, q, hq, hqv, hqf⟩ := hinv.owned frame (hall frame hlt)
    refine .inr (.inr ⟨by simp [hv], ?_, q, mem_resident.2 hqv, ?_, ?_, ?_⟩)
    · rw [card_resident hinv, framesInUse_full hall]
    · rw [load_touch_page, Function.update_self]
      exact hqf
    · rw [(vacated_evict hinv (hall frame hlt) hbye hout).load_resident]
      congr 1
      ext q'
      rw [Finset.mem_filter, Finset.mem_erase, and_comm]
      refine and_congr_left fun hq' => not_congr ⟨fun heq => ?_, fun heq => by rw [heq, hqf]⟩
      exact hinv.frame_inj (mem_resident.1 hq') hqv (heq.trans hqf.symm)
    · have hcount := (evictFrame_some hout).2.2.1
      show a₁.counters.miss = _
      rw [hcount]
      split
      · rfl
      · rfl

/-! ## Traces -/

theorem bump_resident (p : Ptr) (write : Bool) (a : Pager) :
    resident (a.bump p write) = resident a := by
  ext q
  rw [mem_resident, mem_resident, bump_page]

/-- One more request in front of those that are served after the reference. -/
theorem Refer.serves {Q : Finset Ptr → List Ptr → Ptr → Prop} {fut : List Ptr} {m : ℕ}
    (h : Refer memsize io p vaddr write a a') (hinv : a.Inv memsize)
    (hQ : ∀ v ∈ resident a, p ∉ resident a → (resident a).card = memsize →
      (a.page v).frame = (a'.page p).frame → Q (resident a) fut v)
    (hserves : Serves memsize Q (resident a') fut m) :
    ∃ m' ≤ m + 1, Serves memsize Q (resident a) (p :: fut) m' ∧
      a'.counters.miss + BitVec.ofNat 32 m = a.counters.miss + BitVec.ofNat 32 m' := by
  have hnext : a.counters.miss + 1 + BitVec.ofNat 32 m =
      a.counters.miss + BitVec.ofNat 32 (m + 1) := by
    rw [BitVec.ofNat_add, add_assoc, add_comm 1]
    rfl
  obtain ⟨hmem, hres, hm⟩ | ⟨hnot, hcard, hres, hm⟩ | ⟨hnot, hcard, v, hv, hf, hres, hm⟩ :=
    h.demand hinv
  · rw [hres] at hserves
    exact ⟨m, Nat.le_succ m, .hit hmem hserves, by rw [hm]⟩
  · rw [hres] at hserves
    exact ⟨m + 1, le_rfl, .free hnot hcard hserves, by rw [hm, hnext]⟩
  · rw [hres] at hserves
    exact ⟨m + 1, le_rfl, .evict hnot hcard hv (hQ v hv hnot hcard hf) hserves, by rw [hm, hnext]⟩

/-- **A trace is served**, and `miss_count` counts the misses. -/
theorem replay_serves {pol : Policy σ} (hok : pol.Ok memsize) (hmem : memsize ≤ 2 ^ 19)
    {rs : List Reference} {s s' : Sim σ} (hinv : s.pager.Inv memsize)
    (h : replay pol memsize rs s = some s') :
    ∃ m ≤ rs.length, Serves memsize AnyVictim (resident s.pager) (pages rs) m ∧
      s'.counters.miss = s.counters.miss + BitVec.ofNat 32 m := by
  induction rs generalizing s with
  | nil =>
    obtain rfl := Option.some.inj h
    exact ⟨0, le_rfl, .nil, (BitVec.add_zero _).symm⟩
  | cons r rs ih =>
    unfold replay at h
    split at h
    · cases h
    · rename_i ok s₁ hacc
      have hstep : step pol memsize s r s₁ := ⟨ok, hacc⟩
      obtain ⟨m, hm, hserves, hmiss⟩ := ih (inv_step hok hmem hinv hstep) h
      obtain ⟨p, a', hp, href, hs₁⟩ := step_refer hok hmem hstep
      have hcount : s₁.counters.miss = a'.counters.miss := by
        show s₁.pager.counters.miss = _
        rw [hs₁, bump_counters]
      rw [hs₁, bump_resident] at hserves
      obtain ⟨m', hm', hserves', hmiss'⟩ := href.serves hinv (fun _ _ _ _ _ => trivial) hserves
      rw [pages_cons hp]
      refine ⟨m', hm'.trans (Nat.succ_le_succ hm), hserves', ?_⟩
      rw [hmiss, hcount]
      exact hmiss'

end Cscc69.Paging
