import Cscc69.Lib.Recency
import Cscc69.Paging.Algorithms

/-!
# How many misses

What `miss_count` is at the end of a trace, in terms of the pages of the trace.

* Under any policy there is a miss for every page, and an eviction for every miss beyond those that
  the frames have room for (`misses_least`).
* Under fifo there are at most `memsize` times as many misses as under any other policy, and fewer
  if that has fewer frames (`fifo_competitive`).
* Under lru, where no page comes twice in a row, a reference is a miss just if at least `memsize`
  different pages were referenced since the last reference to its page (`lru_misses`). So more
  frames never make more misses, and lru is as competitive as fifo.
-/

namespace Cscc69.Paging

open Caching Pager

variable {σ : Type*} {memsize fuel : ℕ} {past : List Ptr} {r : Reference} {rs : List Reference}
  {p : Ptr} {a : Pager}

/-! ## Every page once -/

/-- As long as there is a free frame no page has gone. -/
structure Filled (memsize : ℕ) (past : List Ptr) (a : Pager) : Prop extends
    Tracked memsize past a where
  room : (∀ q ∈ past, q ∈ resident a) ∨ (resident a).card = memsize

theorem card_resident_le (hinv : a.Inv memsize) : (resident a).card ≤ memsize := by
  rw [card_resident hinv]
  refine (Finset.card_filter_le _ _).trans ?_
  rw [Finset.card_range]

theorem Filled.card (h : Filled memsize past a) :
    (resident a).card = min memsize past.toFinset.card := by
  have hsub : resident a ⊆ past.toFinset := fun q hq =>
    List.mem_toFinset.2 (h.known q (mem_resident.1 hq))
  have hle := card_resident_le h.inv
  have hle' := Finset.card_le_card hsub
  obtain hroom | hfull := h.room
  · have hsub' : past.toFinset ⊆ resident a := fun q hq => hroom q (List.mem_toFinset.1 hq)
    have hge := Finset.card_le_card hsub'
    omega
  · omega

section Policies
variable {pol : Policy σ} {s s' s₀ : Sim σ}

theorem Filled.step (h : Filled memsize past s.pager) (hok : pol.Ok memsize)
    (hmem : memsize ≤ 2 ^ 19) (hp : entryOf r.vaddr = some p) (hs : step pol memsize s r s') :
    Filled memsize (p :: past) s'.pager := by
  refine ⟨h.toTracked.step hok hmem hp hs, ?_⟩
  obtain ⟨q, a', hq, href, hs'⟩ := step_refer hok hmem hs
  obtain rfl : p = q := Option.some.inj (hp.symm.trans hq)
  rw [hs', bump_resident]
  obtain ⟨hmem, hres, -⟩ | ⟨-, hcard, hres, -⟩ | ⟨hnot, hcard, v, hv, -, hres, -⟩ :=
    href.demand h.inv
  · rw [hres]
    refine h.room.imp_left fun hroom q hq => ?_
    obtain rfl | hq := List.mem_cons.1 hq
    · exact hmem
    · exact hroom q hq
  · have hroom := h.room.resolve_right hcard.ne
    refine .inl fun q hq => ?_
    rw [hres]
    exact Finset.mem_insert.2 ((List.mem_cons.1 hq).imp_right (hroom q))
  · right
    have hnot' : p ∉ (resident s.pager).erase v := fun hp => hnot (Finset.mem_of_mem_erase hp)
    rw [hres, Finset.card_insert_of_notMem hnot', Finset.card_erase_add_one hv, hcard]

theorem Filled.replay (h : Filled memsize past s.pager) (hok : pol.Ok memsize)
    (hmem : memsize ≤ 2 ^ 19) (hr : replay pol memsize rs s = some s') :
    Filled memsize ((pages rs).reverse ++ past) s'.pager := by
  induction rs generalizing past s with
  | nil =>
    obtain rfl := Option.some.inj hr
    exact h
  | cons r rs ih =>
    unfold Paging.replay at hr
    split at hr
    · cases hr
    · rename_i ok s₁ hacc
      have hstep : Paging.step pol memsize s r s₁ := ⟨ok, hacc⟩
      obtain ⟨p, -, hp, -⟩ := step_refer hok hmem hstep
      have hlast := ih (h.step hok hmem hp hstep) hr
      rw [pages_cons hp, List.reverse_cons, List.append_assoc]
      exact hlast

theorem start_filled {swapsize : BitVec 32} {physmem file : Bytes.Mem} {policy : σ}
    (hs₀ : start swapsize physmem file policy = some s₀) : Filled memsize [] s₀.pager :=
  ⟨start_tracked hs₀, .inl fun _ hq => absurd hq List.not_mem_nil⟩

/-- A trace that is replayed has no address beyond the page directory. -/
theorem replay_entries (hok : pol.Ok memsize) (hmem : memsize ≤ 2 ^ 19)
    (hr : replay pol memsize rs s = some s') : ∀ r ∈ rs, (entryOf r.vaddr).isSome = true := by
  induction rs generalizing s with
  | nil => exact fun r hr => absurd hr List.not_mem_nil
  | cons r rs ih =>
    unfold replay at hr
    split at hr
    · cases hr
    · rename_i ok s₁ hacc
      obtain ⟨p, -, hp, -⟩ := step_refer hok hmem (⟨ok, hacc⟩ : step pol memsize s r s₁)
      exact List.forall_mem_cons.2 ⟨by rw [hp]; rfl, ih hr⟩

/-- What `miss_count` counts, if it does not wrap. -/
theorem replay_misses {swapsize : BitVec 32} {physmem file : Bytes.Mem} {policy : σ}
    (hok : pol.Ok memsize) (hmem : memsize ≤ 2 ^ 19)
    (hs₀ : start swapsize physmem file policy = some s₀) (hlen : rs.length < 2 ^ 31)
    (hr : replay pol memsize rs s₀ = some s) :
    Serves memsize AnyVictim ∅ (pages rs) s.counters.miss.toNat := by
  obtain ⟨m, hm, hserves, hmiss⟩ := replay_serves hok hmem (inv_start hs₀) hr
  obtain ⟨hempty, hzero⟩ := start_resident hs₀
  rw [hzero, zero_add] at hmiss
  rw [hmiss, BitVec.toNat_ofNat, Nat.mod_eq_of_lt (by omega)]
  rwa [hempty] at hserves

/-- What one run tells of another one with the same addresses. -/
theorem replay_same {swapsize : BitVec 32} {physmem file : Bytes.Mem} {policy : σ}
    (hok : pol.Ok memsize) (hmem : memsize ≤ 2 ^ 19)
    (hs₀ : start swapsize physmem file policy = some s₀) {rs' : List Reference}
    (hsame : rs'.map (·.vaddr) = rs.map (·.vaddr)) (hlen : rs.length < 2 ^ 31)
    (hr' : replay pol memsize rs' s₀ = some s') :
    (∀ r ∈ rs, (entryOf r.vaddr).isSome = true) ∧
      Serves memsize AnyVictim ∅ (pages rs) s'.counters.miss.toNat := by
  have hlength : rs'.length = rs.length := by simpa using congrArg List.length hsame
  refine ⟨?_, ?_⟩
  · have hrs' := replay_entries hok hmem hr'
    rw [← List.forall_mem_map (P := fun a => (entryOf a).isSome = true), ← hsame,
      List.forall_mem_map]
    exact hrs'
  · rw [← pages_congr hsame]
    exact replay_misses hok hmem hs₀ (hlength ▸ hlen) hr'

section Counts
variable {swapsize : BitVec 32} {physmem file : Bytes.Mem} {policy : σ} (hok : pol.Ok memsize)
  (hmem : memsize ≤ 2 ^ 19) (hs₀ : start swapsize physmem file policy = some s₀)
  (hlen : rs.length < 2 ^ 31) (hr : replay pol memsize rs s₀ = some s)
include hok hmem hs₀ hlen hr

theorem distinct_le_misses : (pages rs).toFinset.card ≤ s.counters.miss.toNat := by
  have hleast := (replay_misses hok hmem hs₀ hlen hr).card_sdiff_le
  rwa [Finset.sdiff_empty] at hleast

theorem misses_of_room (hroom : (pages rs).toFinset.card ≤ memsize) :
    s.counters.miss.toNat = (pages rs).toFinset.card := by
  have hserves := replay_misses hok hmem hs₀ hlen hr
  have heq := hserves.eq_card_sdiff (by rwa [Finset.empty_union])
  rwa [Finset.sdiff_empty] at heq

theorem evictions_add_room : s.counters.evictClean.toNat + s.counters.evictDirty.toNat +
    min memsize (pages rs).toFinset.card = s.counters.miss.toNat := by
  have hfilled := (start_filled hs₀ : Filled memsize [] s₀.pager).replay hok hmem hr
  have hcard := hfilled.card
  rw [card_resident hfilled.inv, List.append_nil, List.toFinset_reverse] at hcard
  obtain ⟨h, hrun, hevents⟩ := replay_run hs₀ hr
  have hhist : h.length = rs.length := by
    rw [← hevents, List.length_reverse, List.length_map]
  obtain ⟨-, hc⟩ := hrun.counted hok hmem
  have hle := List.countP_le_length (p := fun t => !hits t) (l := h)
  have hclean := hc.evictions_le false
  have hdirty := hc.evictions_le true
  have hbal := hc.balance
  rw [show framesInUse memsize s.coremap = _ from hcard] at hbal
  rw [hc.miss, hc.clean, hc.evictDirty, BitVec.toNat_ofNat, BitVec.toNat_ofNat,
    BitVec.toNat_ofNat, Nat.mod_eq_of_lt (by omega), Nat.mod_eq_of_lt (by omega),
    Nat.mod_eq_of_lt (by omega)]
  exact hbal.symm

/-- Every reference is counted, as a hit or as a miss. -/
theorem refs_counted : s.counters.ref.toNat = rs.length ∧
    s.counters.hit.toNat + s.counters.miss.toNat = rs.length := by
  obtain ⟨h, hrun, hevents⟩ := replay_run hs₀ hr
  have hhist : h.length = rs.length := by
    rw [← hevents, List.length_reverse, List.length_map]
  obtain ⟨-, hc⟩ := hrun.counted hok hmem
  have hsplit := List.length_eq_countP_add_countP hits (l := h)
  simp only [Bool.not_eq_true, Bool.decide_eq_false] at hsplit
  rw [hc.ref, hc.hit, hc.miss, BitVec.toNat_ofNat, BitVec.toNat_ofNat, BitVec.toNat_ofNat,
    Nat.mod_eq_of_lt (by omega), Nat.mod_eq_of_lt (by omega), Nat.mod_eq_of_lt (by omega)]
  omega

end Counts

/-- **Every page is loaded once, and every load into a full memory makes a page go.** If there is a
frame for every page, there are no other misses. -/
theorem misses_least {swapsize : BitVec 32} {physmem file : Bytes.Mem} {policy : σ}
    (hok : pol.Ok memsize) (hmem : memsize ≤ 2 ^ 19)
    (hs₀ : start swapsize physmem file policy = some s₀) (hlen : rs.length < 2 ^ 31)
    (hr : replay pol memsize rs s₀ = some s) :
    (pages rs).toFinset.card ≤ s.counters.miss.toNat ∧
    s.counters.evictClean.toNat + s.counters.evictDirty.toNat +
      min memsize (pages rs).toFinset.card = s.counters.miss.toNat ∧
    ((pages rs).toFinset.card ≤ memsize →
      s.counters.miss.toNat = (pages rs).toFinset.card) :=
  ⟨distinct_le_misses hok hmem hs₀ hlen hr, evictions_add_room hok hmem hs₀ hlen hr,
    misses_of_room hok hmem hs₀ hlen hr⟩

/-- Two pages, twice each, with two frames. -/
theorem misses_least_two : ∃ s,
    replay (fifo 2) 2 [exRead 0, exRead 1, exRead 0, exRead 1] (exStart (fifoInit two_pos)) =
      some s ∧ s.counters.miss.toNat = 2 := by
  obtain ⟨s, hs⟩ : ∃ s, replay (fifo 2) 2 [exRead 0, exRead 1, exRead 0, exRead 1]
      (exStart (fifoInit two_pos)) = some s := Option.isSome_iff_exists.1 (by decide)
  have hcard : (pages [exRead 0, exRead 1, exRead 0, exRead 1]).toFinset.card = 2 := by decide
  obtain ⟨-, -, hroom⟩ := misses_least (fifo_ok 2) (by decide) (exStart_start (fifoInit two_pos))
    (by decide) hs
  rw [hcard] at hroom
  exact ⟨s, hs, hroom le_rfl⟩

end Policies

/-! ## Fifo -/

section Fifo
variable {h : History (Fin memsize)} {s s' : Sim (Fin memsize)} {since : Ptr → Finset Ptr}

/-- A reference loads its own page, if it is not in memory. -/
theorem step_loads {s s' : Sim σ} {pol : Policy σ} (hok : pol.Ok memsize) (hmem : memsize ≤ 2 ^ 19)
    (hinv : s.pager.Inv memsize) (hp : entryOf r.vaddr = some p) (hs : step pol memsize s r s')
    (q : Ptr) : Loads ⟨s, r, s'⟩ q ↔ q = p ∧ q ∉ resident s.pager := by
  obtain ⟨q', a', hq', href, hs'⟩ := step_refer hok hmem hs
  obtain rfl : p = q' := Option.some.inj (hp.symm.trans hq')
  have hafter : (s'.pager.page q).valid = (a'.page q).valid := by rw [hs', bump_page]
  rw [loads_iff, mem_resident, Bool.not_eq_true]
  show _ ∧ (s'.pager.page q).valid = true ↔ _
  rw [hafter]
  constructor
  · rintro ⟨hbefore, hvalid⟩
    refine ⟨(href.valid_or hinv hvalid).resolve_right fun hv => ?_, hbefore⟩
    rw [hbefore] at hv
    cases hv
  · rintro ⟨rfl, hbefore⟩
    exact ⟨hbefore, href.valid⟩

/-- The victim was loaded before all other pages. -/
theorem InOrder.victim (ho : InOrder h s) (hmem : memsize ≤ 2 ^ 19)
    (hp : entryOf r.vaddr = some p) (hs : Paging.step (fifo memsize) memsize s r s')
    (hnot : p ∉ resident s.pager) (hcard : (resident s.pager).card = memsize) {v : Ptr}
    (hv : v ∈ resident s.pager) (hf : (s.pager.page v).frame = (s'.pager.page p).frame) :
    ∀ q ∈ resident s.pager, q ≠ v → loadedAt h v < loadedAt h q := by
  intro q hq hne
  obtain ⟨q', s₁, s₂, hq', hplaced, href, hbump, -, -⟩ := step_placed (fifo_ok memsize) hmem hs
  obtain rfl : p = q' := Option.some.inj (hp.symm.trans hq')
  obtain rfl : s₁ = s₂ := Option.some.inj href
  rw [hbump, bump_page] at hf
  cases hplaced with
  | hit hvalid => exact absurd (mem_resident.2 hvalid) hnot
  | free _ hfree _ _ _ =>
    rw [card_resident ho.inv] at hcard
    have hused := List.find?_some hfree
    rw [Bool.not_eq_true'] at hused
    have hlt := framesInUse_lt (List.mem_range.1 (List.mem_of_find?_eq_some hfree)) hused
    exact absurd hcard hlt.ne
  | @evict frame bye s₃ a' _ _ hev _ _ hpager _ _ =>
    have hframe := (fifoEvict_some hev).1
    rw [missed_policy] at hframe
    rw [hpager, load_touch_page, Function.update_self] at hf
    have hturn : (s.pager.page v).frame = s.policy := hf.trans hframe
    have hqv := mem_resident.1 hq
    refine ho.order v q (mem_resident.1 hv) hqv ?_
    rw [hturn, turn_self]
    refine turn_pos s.policy.isLt fun heq => hne ?_
    exact ho.inv.frame_inj hqv (mem_resident.1 hv) (heq.trans hturn.symm)

/-- **Fifo is patient**: the oldest page goes, and the others were loaded since. -/
theorem fifo_patient (hmem : memsize ≤ 2 ^ 19) (ho : InOrder h s)
    (hsince : ∀ v ∈ resident s.pager, ∀ q ∈ resident s.pager, loadedAt h v < loadedAt h q →
      q ∈ since v) (hr : replay (fifo memsize) memsize rs s = some s') :
    ∃ m ≤ rs.length, Patient memsize since (resident s.pager) (pages rs) m ∧
      s'.counters.miss = s.counters.miss + BitVec.ofNat 32 m := by
  induction rs generalizing h s since with
  | nil =>
    obtain rfl := Option.some.inj hr
    exact ⟨0, le_rfl, .nil, (BitVec.add_zero _).symm⟩
  | cons r rs ih =>
    unfold replay at hr
    split at hr
    · cases hr
    rename_i ok s₁ hacc
    have hstep : step (fifo memsize) memsize s r s₁ := ⟨ok, hacc⟩
    obtain ⟨p, a', hp, href, hs₁⟩ := step_refer (fifo_ok memsize) hmem hstep
    have hloads := step_loads (fifo_ok memsize) hmem ho.inv hp hstep
    have hres₁ : resident s₁.pager = resident a' := by rw [hs₁, bump_resident]
    have hcount : s₁.counters.miss = a'.counters.miss := by
      show s₁.pager.counters.miss = _
      rw [hs₁, bump_counters]
    have hloaded : ∀ q, loadedAt (⟨s, r, s₁⟩ :: h) q =
        if q = p ∧ q ∉ resident s.pager then h.length + 1 else loadedAt h q := by
      intro q
      show (if Loads ⟨s, r, s₁⟩ q then h.length + 1 else loadedAt h q) = _
      exact if_congr (hloads q) rfl rfl
    -- what the pages after a load know of each other
    have hnext : ∀ C ⊆ resident s.pager, p ∉ resident s.pager → resident a' = insert p C →
        ∀ v ∈ resident s₁.pager, ∀ q ∈ resident s₁.pager,
          loadedAt (⟨s, r, s₁⟩ :: h) v < loadedAt (⟨s, r, s₁⟩ :: h) q → q ∈ noteLoad since p v := by
      intro C hC hnot hres v hv q hq hlt
      rw [hres₁, hres, Finset.mem_insert] at hv hq
      rw [hloaded, hloaded] at hlt
      obtain rfl | hvp := eq_or_ne v p
      · have hle := loadedAt_le h q
        rw [if_pos ⟨rfl, hnot⟩] at hlt
        split at hlt
        · exact absurd hlt (lt_irrefl _)
        · omega
      · rw [noteLoad, Function.update_of_ne hvp, note, Finset.mem_insert]
        refine or_iff_not_imp_left.2 fun hqp => ?_
        rw [if_neg fun heq => hvp heq.1, if_neg fun heq => hqp heq.1] at hlt
        exact hsince v (hC (hv.resolve_left hvp)) q (hC (hq.resolve_left hqp)) hlt
    have hsum : ∀ m, a'.counters.miss = s.pager.counters.miss + 1 →
        s'.counters.miss = s₁.counters.miss + BitVec.ofNat 32 m →
        s'.counters.miss = s.counters.miss + BitVec.ofNat 32 (m + 1) := by
      intro m hone hm
      rw [hm, hcount, hone, BitVec.ofNat_add, add_assoc, add_comm 1]
      rfl
    rw [pages_cons hp]
    obtain ⟨hmem', hres, hone⟩ | ⟨hnot, hcard, hres, hone⟩ | ⟨hnot, hcard, v, hv, hf, hres, hone⟩ :=
      href.demand ho.inv
    · have hkeep : ∀ v ∈ resident s₁.pager, ∀ q ∈ resident s₁.pager,
          loadedAt (⟨s, r, s₁⟩ :: h) v < loadedAt (⟨s, r, s₁⟩ :: h) q → q ∈ note since p v := by
        intro v hv q hq hlt
        rw [hres₁, hres] at hv hq
        rw [hloaded, hloaded, if_neg fun heq => heq.2 hv, if_neg fun heq => heq.2 hq] at hlt
        exact Finset.mem_insert_of_mem (hsince v hv q hq hlt)
      obtain ⟨m, hm, hpatient, hmiss⟩ := ih (ho.step hmem hstep) hkeep hr
      rw [hres₁, hres] at hpatient
      refine ⟨m, hm.trans (Nat.le_succ _), .hit hmem' hpatient, ?_⟩
      rw [hmiss, hcount, hone]
      rfl
    · obtain ⟨m, hm, hpatient, hmiss⟩ := ih (ho.step hmem hstep)
        (hnext _ subset_rfl hnot hres) hr
      rw [hres₁, hres] at hpatient
      exact ⟨m + 1, Nat.succ_le_succ hm, .free hnot hcard hpatient, hsum m hone hmiss⟩
    · obtain ⟨m, hm, hpatient, hmiss⟩ := ih (ho.step hmem hstep)
        (hnext _ (Finset.erase_subset _ _) hnot hres) hr
      rw [hres₁, hres] at hpatient
      have hf' : (s.pager.page v).frame = (s₁.pager.page p).frame := by rw [hf, hs₁, bump_page]
      refine ⟨m + 1, Nat.succ_le_succ hm, .evict hnot hcard hv (fun q hq => ?_) hpatient,
        hsum m hone hmiss⟩
      obtain ⟨hqv, hq⟩ := Finset.mem_erase.1 hq
      exact hsince v hv q hq (ho.victim hmem hp hstep hnot hcard hv hf' q hq hqv)

/-- **Fifo is competitive** with any other policy, on the same addresses and with no more frames: it
gets to the end of the trace, and makes at most `memsize / (memsize + 1 - memsize')` times as many
misses, up to a constant. The transfers to the swap file may go differently in the two runs. -/
theorem fifo_competitive (hpos : 0 < memsize) (hmem : memsize ≤ 2 ^ 19) {swapsize : BitVec 32}
    {physmem file : Bytes.Mem} {s₀ : Sim (Fin memsize)}
    (hs₀ : start swapsize physmem file (fifoInit hpos) = some s₀) {memsize' : ℕ}
    (hle : memsize' ≤ memsize) {pol : Policy σ} (hok : pol.Ok memsize') {swapsize' : BitVec 32}
    {physmem' file' : Bytes.Mem} {policy : σ} {s₀' s' : Sim σ}
    (hs₀' : start swapsize' physmem' file' policy = some s₀') {rs rs' : List Reference}
    (hsame : rs'.map (·.vaddr) = rs.map (·.vaddr)) (hlen : rs.length < 2 ^ 31)
    (hr' : replay pol memsize' rs' s₀' = some s') :
    ∃ s, replay (fifo memsize) memsize rs s₀ = some s ∧
      (memsize + 1 - memsize') * s.counters.miss.toNat ≤
        memsize * (s'.counters.miss.toNat + (memsize - memsize')) := by
  obtain ⟨hrs, hother⟩ := replay_same hok (hle.trans hmem) hs₀' hsame hlen hr'
  obtain ⟨s, hs⟩ := fifo_isSome hmem (start_tracked hs₀) hrs
  obtain ⟨hempty, hzero⟩ := start_resident hs₀
  have hnone : ∀ v ∈ resident s₀.pager, ∀ q ∈ resident s₀.pager,
      loadedAt ([] : History (Fin memsize)) v < loadedAt ([] : History (Fin memsize)) q →
        q ∈ (fun _ => ∅ : Ptr → Finset Ptr) v := by
    intro v hv
    rw [hempty] at hv
    exact absurd hv (Finset.notMem_empty v)
  obtain ⟨m, hm, hpatient, hmiss⟩ := fifo_patient hmem (inOrder_start hs₀) hnone hs
  rw [hempty] at hpatient
  rw [hzero, zero_add] at hmiss
  refine ⟨s, hs, ?_⟩
  rw [hmiss, BitVec.toNat_ofNat, Nat.mod_eq_of_lt (by omega)]
  exact hpatient.competitive hpos hle hother

/-- Two frames and one. -/
theorem fifo_competitive_one : ∃ s s',
    replay (fifo 2) 2 [exRead 0, exRead 1, exRead 2, exRead 0] (exStart (fifoInit two_pos)) =
      some s ∧
    replay (fifo 1) 1 [exRead 0, exRead 1, exRead 2, exRead 0] (exStart (fifoInit one_pos)) =
      some s' ∧
    (2 + 1 - 1) * s.counters.miss.toNat ≤ 2 * (s'.counters.miss.toNat + (2 - 1)) := by
  have hs₀ := exStart_start (fifoInit one_pos)
  obtain ⟨s', hs'⟩ := fifo_isSome (by decide) (start_tracked hs₀)
    (by decide : ∀ r ∈ [exRead 0, exRead 1, exRead 2, exRead 0], (entryOf r.vaddr).isSome = true)
  have hsame : [exRead 0, exRead 1, exRead 2, exRead 0].map (·.vaddr) =
      [exRead 0, exRead 1, exRead 2, exRead 0].map (·.vaddr) := rfl
  obtain ⟨s, hs, hle⟩ := fifo_competitive two_pos (by decide) (exStart_start (fifoInit two_pos))
    one_le_two (fifo_ok 1) hs₀ hsame (by decide) hs'
  exact ⟨s, s', hs, hs', hle⟩

end Fifo

/-! ## Lru -/

section Lru
variable {malloc : DList.Malloc ℕ} {s s' s₀ : Sim LruData} {frames : List ℕ}

/-- The victim is the least recent page. -/
theorem Ordered.victim {io : Transfer} {vaddr : BitVec 64} {write : Bool} {a a₁ : Pager}
    {x x₁ : LruData} {frame : ℕ} (ho : Ordered memsize past a.coremap x frames)
    (hfuel : memsize < fuel) (hpos : 1 ≤ memsize) (ht : Tracked memsize past a)
    (h : (lruData malloc fuel).Placed memsize io p vaddr write a x a₁ frame x₁)
    (hnot : p ∉ resident a) (hcard : (resident a).card = memsize) {v : Ptr} (hv : v ∈ resident a)
    (hf : (a.page v).frame = (a₁.page p).frame) :
    ∀ q ∈ resident a, q ≠ v → past.idxOf q < past.idxOf v := by
  intro q hq hne
  rw [h.frame_eq] at hf
  cases h with
  | hit hvalid => exact absurd (mem_resident.2 hvalid) hnot
  | free _ hfree =>
    have hused := List.find?_some hfree
    rw [Bool.not_eq_true'] at hused
    rw [card_resident ht.inv] at hcard
    have hlt := framesInUse_lt (List.mem_range.1 (List.mem_of_find?_eq_some hfree)) hused
    exact absurd hcard hlt.ne
  | evict _ hall hev _ _ =>
    obtain ⟨others, last, x', rfl, hev', -⟩ := ho.evict_full hfuel hpos hall
    obtain rfl : last = frame := (Prod.mk.inj (Option.some.inj (hev'.symm.trans hev))).1
    have hqv := mem_resident.1 hq
    have hvv := mem_resident.1 hv
    have hres := ht.inv.resident q hqv
    have hres' := ht.inv.resident v hvv
    -- the frame of `q` is in the list, and not the last one
    have hmem := (ho.mem_iff (a.page q).frame).2
      ⟨ht.inv.frame_lt hqv, congrArg Frame.inUse hres⟩
    obtain hmem | hmem := List.mem_append.1 hmem
    · have hlt := (List.pairwise_append.1 ho.sorted).2.2 _ hmem last List.mem_cons_self
      rwa [← hf, age_of_pte (congrArg Frame.pte hres), age_of_pte (congrArg Frame.pte hres')] at hlt
    · have heq := (List.mem_singleton.1 hmem).trans hf.symm
      exact absurd (ht.inv.frame_inj hqv hvv heq) hne

/-- The pages in memory are the most recent ones, and a reference to a page that is not near is a
miss. -/
theorem step_recent (hmem : memsize ≤ 2 ^ 19) (hpos : 1 ≤ memsize) (hfuel : memsize < fuel)
    (ht : Tracked memsize past s.pager) (ho : Ordered memsize past s.coremap s.policy frames)
    (hres : resident s.pager = lruCache memsize past) (hp : entryOf r.vaddr = some p) {ok : Bool}
    (hacc : accessMem (lru malloc fuel) memsize r.io r.type r.vaddr s = some (ok, s')) :
    resident s'.pager = lruCache memsize (p :: past) ∧
      s'.counters.miss = s.counters.miss + if Near memsize past p then 0 else 1 := by
  obtain ⟨a₁, frame, x₁, hplaced⟩ := ho.placed malloc hfuel hpos ht r.io.pageout p r.vaddr
    (decide (Writes r.type))
  have hserve := accessMem_placed hmem (ho.evict_lt hfuel) hp hplaced
  rw [show accessMem (lruData malloc fuel).policy _ _ _ _ _ = _ from hacc] at hserve
  obtain ⟨x₂, -, hboth⟩ := Option.map_eq_some_iff.1 hserve.symm
  have hpager : s'.pager = a₁.bump p (decide (Writes r.type)) := (congrArg Prod.fst hboth).symm
  have hcount : s'.counters.miss = a₁.counters.miss := by
    show s'.pager.counters.miss = _
    rw [hpager, bump_counters]
  rw [hpager, bump_resident, hcount]
  obtain ⟨hin, hsame, hmiss⟩ | ⟨hnot, hcard, hload, hmiss⟩ |
      ⟨hnot, hcard, v, hv, hf, hload, hmiss⟩ :=
    (hplaced.refer (ho.evict_lt hfuel)).demand ht.inv
  · rw [hres, mem_lruCache] at hin
    rw [if_pos hin, hsame, hmiss, hres, lruCache_hit hin]
    exact ⟨rfl, (add_zero _).symm⟩
  · rw [hres, mem_lruCache] at hnot
    rw [hres] at hcard
    obtain ⟨-, hcache⟩ | ⟨hfull, -⟩ := lruCache_miss hpos hnot
    · rw [if_neg hnot, hload, hmiss, hres, hcache]
      exact ⟨rfl, rfl⟩
    · exact absurd hfull hcard.ne
  · have hnear : ¬ Near memsize past p := by
      rwa [hres, mem_lruCache] at hnot
    rw [hres] at hcard
    obtain ⟨hroom, -⟩ | ⟨-, w, hw, hold, hcache⟩ := lruCache_miss hpos hnear
    · exact absurd hcard hroom.ne
    have hvw : v = w := by
      by_contra hne
      have hlt := hold v (hres ▸ hv) hne
      have hlt' := ho.victim hfuel hpos ht hplaced hnot (hres ▸ hcard) hv hf w (hres ▸ hw)
        (Ne.symm hne)
      rw [← idxOf_ptr, ← idxOf_ptr] at hlt'
      exact lt_asymm hlt hlt'
    rw [if_neg hnear, hmiss, hcache, ← hres, hload, hvw]
    exact ⟨rfl, rfl⟩

/-- **Lru replays a trace in which no page comes twice in a row**, and the misses are the references
to pages that are not near. -/
theorem lru_recent (malloc : DList.Malloc ℕ) (hmem : memsize ≤ 2 ^ 19) (hmany : 2 ≤ memsize)
    (hfuel : memsize < fuel)
    (ht : Tracked memsize past s.pager) (ho : Ordered memsize past s.coremap s.policy frames)
    (hres : resident s.pager = lruCache memsize past)
    (hrs : ∀ r ∈ rs, (entryOf r.vaddr).isSome = true)
    (hchain : (past.head?.toList ++ pages rs).IsChain (· ≠ ·)) :
    ∃ s', replay (lru malloc fuel) memsize rs s = some s' ∧
      s'.counters.miss =
        s.counters.miss + BitVec.ofNat 32 (farRequests memsize past (pages rs)) := by
  induction rs generalizing past s frames with
  | nil => exact ⟨s, rfl, (add_zero _).symm⟩
  | cons r rs ih =>
    obtain ⟨hr, hrs⟩ := List.forall_mem_cons.1 hrs
    obtain ⟨p, hp⟩ := Option.isSome_iff_exists.1 hr
    rw [pages_cons hp] at hchain ⊢
    have hnew : past.head? ≠ some p := by
      intro hhead
      rw [hhead] at hchain
      exact (List.isChain_cons_cons.1 hchain).1 rfl
    have hpos : 1 ≤ memsize := Nat.le_of_succ_le hmany
    obtain ⟨ok, s₁, hacc, frames₁, ho₁⟩ := step_ordered malloc hmem hpos hfuel ht ho hp hnew
      fun hone => by omega
    have ht₁ := step_tracked hmem hpos hfuel ht ho hp hacc
    obtain ⟨hres₁, hmiss₁⟩ := step_recent hmem hpos hfuel ht ho hres hp hacc
    obtain ⟨s', hs', hmiss⟩ := ih ht₁ ho₁ hres₁ hrs (List.isChain_append.1 hchain).2.1
    refine ⟨s', ?_, ?_⟩
    · unfold replay
      rw [hacc]
      exact hs'
    · rw [hmiss, hmiss₁, farRequests, BitVec.ofNat_add, add_assoc, add_comm (BitVec.ofNat 32 _)]
      split
      · rfl
      · rfl

/-- What `miss_count` is at the end of a trace in which no page comes twice in a row. -/
theorem lru_counts (malloc : DList.Malloc ℕ) (hmem : memsize ≤ 2 ^ 19) (hmany : 2 ≤ memsize)
    (hfuel : memsize < fuel) {swapsize : BitVec 32} {physmem file : Bytes.Mem}
    {heap : DList.Heap ℕ} (hs₀ : start swapsize physmem file (lruInit heap) = some s₀)
    (hrs : ∀ r ∈ rs, (entryOf r.vaddr).isSome = true) (hchain : (pages rs).IsChain (· ≠ ·))
    (hlen : rs.length < 2 ^ 31) : ∃ s, replay (lru malloc fuel) memsize rs s₀ = some s ∧
      s.counters.miss.toNat = farRequests memsize [] (pages rs) := by
  obtain ⟨hempty, hzero⟩ := start_resident hs₀
  obtain ⟨s, hs, hmiss⟩ := lru_recent malloc hmem hmany hfuel (start_tracked hs₀)
    (start_ordered hs₀) (hempty.trans (lruCache_nil memsize).symm) hrs hchain
  refine ⟨s, hs, ?_⟩
  have hle := farRequests_le memsize [] (pages rs)
  have hpages : (pages rs).length ≤ rs.length := List.length_filterMap_le _ _
  rw [hmiss, hzero, zero_add, BitVec.toNat_ofNat, Nat.mod_eq_of_lt (by omega)]

/-- **The misses of lru are read off the pages of the trace**: if no page is referenced twice in a
row, they are the references to pages that were not referenced before, or not since `memsize` other
pages were. So more frames never make more misses. -/
theorem lru_misses (malloc : DList.Malloc ℕ) (hmem : memsize ≤ 2 ^ 19) (hmany : 2 ≤ memsize)
    (hfuel : memsize < fuel) {swapsize : BitVec 32} {physmem file : Bytes.Mem}
    {heap : DList.Heap ℕ} (hs₀ : start swapsize physmem file (lruInit heap) = some s₀)
    (hrs : ∀ r ∈ rs, (entryOf r.vaddr).isSome = true) (hchain : (pages rs).IsChain (· ≠ ·))
    (hlen : rs.length < 2 ^ 31) : ∃ s, replay (lru malloc fuel) memsize rs s₀ = some s ∧
      s.counters.miss.toNat = farRequests memsize [] (pages rs) ∧
      ∀ memsize' < memsize, 2 ≤ memsize' → ∃ s', replay (lru malloc fuel) memsize' rs s₀ = some s' ∧
        s.counters.miss.toNat ≤ s'.counters.miss.toNat := by
  obtain ⟨s, hs, hmiss⟩ := lru_counts malloc hmem hmany hfuel hs₀ hrs hchain hlen
  refine ⟨s, hs, hmiss, fun memsize' hlt hmany' => ?_⟩
  obtain ⟨s', hs', hmiss'⟩ := lru_counts malloc (hlt.le.trans hmem) hmany' (hlt.trans hfuel) hs₀
    hrs hchain hlen
  refine ⟨s', hs', ?_⟩
  rw [hmiss, hmiss']
  exact farRequests_anti hlt.le [] (pages rs)

/-- Three pages, one after the other, in three frames and in two. -/
theorem lru_misses_three : ∃ s s',
    replay (lru bumpMalloc 4) 3 [exLoad 0, exLoad 1, exLoad 2, exLoad 0]
      (exStart (lruInit emptyHeap)) = some s ∧
    replay (lru bumpMalloc 4) 2 [exLoad 0, exLoad 1, exLoad 2, exLoad 0]
      (exStart (lruInit emptyHeap)) = some s' ∧
    s.counters.miss.toNat = 3 ∧ s.counters.miss.toNat ≤ s'.counters.miss.toNat := by
  have hfar : farRequests 3 [] (pages [exLoad 0, exLoad 1, exLoad 2, exLoad 0]) = 3 := by decide
  obtain ⟨s, hs, hmiss, hfewer⟩ := lru_misses bumpMalloc (by decide : 3 ≤ 2 ^ 19)
    (by decide) (by decide : 3 < 4) (exStart_start (lruInit emptyHeap))
    (by decide : ∀ r ∈ [exLoad 0, exLoad 1, exLoad 2, exLoad 0], (entryOf r.vaddr).isSome = true)
    (by decide) (by decide)
  obtain ⟨s', hs', hle⟩ := hfewer 2 (by decide) (by decide)
  exact ⟨s, s', hs, hs', hmiss.trans hfar, hle⟩

/-- **Lru is competitive** with any other policy where no page is referenced twice in a row. -/
theorem lru_competitive (malloc : DList.Malloc ℕ) (hmem : memsize ≤ 2 ^ 19) (hmany : 2 ≤ memsize)
    (hfuel : memsize < fuel) {swapsize : BitVec 32} {physmem file : Bytes.Mem}
    {heap : DList.Heap ℕ} (hs₀ : start swapsize physmem file (lruInit heap) = some s₀)
    {memsize' : ℕ} (hle : memsize' ≤ memsize) {pol : Policy σ} (hok : pol.Ok memsize')
    {swapsize' : BitVec 32} {physmem' file' : Bytes.Mem} {policy : σ} {s₀' s' : Sim σ}
    (hs₀' : start swapsize' physmem' file' policy = some s₀') {rs rs' : List Reference}
    (hsame : rs'.map (·.vaddr) = rs.map (·.vaddr)) (hlen : rs.length < 2 ^ 31)
    (hchain : (pages rs).IsChain (· ≠ ·)) (hr' : replay pol memsize' rs' s₀' = some s') :
    ∃ s, replay (lru malloc fuel) memsize rs s₀ = some s ∧
      (memsize + 1 - memsize') * s.counters.miss.toNat ≤
        memsize * (s'.counters.miss.toNat + (memsize - memsize')) := by
  obtain ⟨hrs, hother⟩ := replay_same hok (hle.trans hmem) hs₀' hsame hlen hr'
  obtain ⟨s, hs, hmiss⟩ := lru_counts malloc hmem hmany hfuel hs₀ hrs hchain hlen
  have hpatient : Patient memsize (fun _ => ∅) ∅ (pages rs) s.counters.miss.toNat := by
    rw [hmiss, ← lruCache_nil memsize]
    refine farRequests_patient (Nat.zero_lt_of_lt hmany) (fun v hv => ?_) (pages rs)
    rw [lruCache_nil] at hv
    exact absurd hv (Finset.notMem_empty v)
  exact ⟨s, hs, hpatient.competitive (Nat.zero_lt_of_lt hmany) hle hother⟩

/-- Against fifo with one frame. -/
theorem lru_competitive_one : ∃ s s',
    replay (lru bumpMalloc 3) 2 [exLoad 0, exLoad 1, exLoad 2, exLoad 0]
      (exStart (lruInit emptyHeap)) = some s ∧
    replay (fifo 1) 1 [exLoad 0, exLoad 1, exLoad 2, exLoad 0] (exStart (fifoInit one_pos)) =
      some s' ∧
    (2 + 1 - 1) * s.counters.miss.toNat ≤ 2 * (s'.counters.miss.toNat + (2 - 1)) := by
  have hs₀ := exStart_start (fifoInit one_pos)
  obtain ⟨s', hs'⟩ := fifo_isSome (by decide) (start_tracked hs₀)
    (by decide : ∀ r ∈ [exLoad 0, exLoad 1, exLoad 2, exLoad 0], (entryOf r.vaddr).isSome = true)
  have hsame : [exLoad 0, exLoad 1, exLoad 2, exLoad 0].map (·.vaddr) =
      [exLoad 0, exLoad 1, exLoad 2, exLoad 0].map (·.vaddr) := rfl
  obtain ⟨s, hs, hle⟩ := lru_competitive bumpMalloc (by decide) le_rfl
    (by decide : 2 < 3) (exStart_start (lruInit emptyHeap)) one_le_two (fifo_ok 1) hs₀ hsame
    (by decide) (by decide) hs'
  exact ⟨s, s', hs, hs', hle⟩

end Lru

end Cscc69.Paging
