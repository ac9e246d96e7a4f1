import Cscc69.Paging.Residency
import Mathlib.Data.Set.Card

/-!
# The statistics

What the simulator prints is stated against the history of the run: the references that found
their page resident, the pages that a reference made go, and whether a page has been written since
it was last loaded. `Exact` says that the counters are these numbers, and
`Run.exact` that this is so after every prefix of a trace.

The counters wrap, so the invariant `Counted` has them modulo `2 ^ 32`; the bound on the number of
references comes in at the end.
-/

namespace Cscc69.Paging

open Pager

variable {σ : Type*}

/-- The references of a run so far, newest first. -/
abbrev History (σ : Type*) := List (Lts.Transition (Sim σ) Reference)

/-! ## The history -/

instance (e : PgtblEntry) : Decidable e.Valid := by unfold PgtblEntry.Valid; infer_instance

section History
variable (t : Lts.Transition (Sim σ) Reference)

def hits : Bool := (entryOf t.event.vaddr).any fun p => decide (t.before.entry p).Valid

/-- The page of `q` was brought in. -/
def Loads (q : Ptr) : Prop := ¬ (t.before.entry q).Valid ∧ (t.after.entry q).Valid

/-- The page of `q` was made to go. -/
def Evicts (q : Ptr) : Prop := (t.before.entry q).Valid ∧ ¬ (t.after.entry q).Valid

instance (q : Ptr) : Decidable (Loads t q) := by unfold Loads; infer_instance
instance (q : Ptr) : Decidable (Evicts t q) := by unfold Evicts; infer_instance

def writesTo (q : Ptr) : Bool :=
  decide (entryOf t.event.vaddr = some q) && decide (Writes t.event.type)

end History

/-- Whether the page of `q` has been written since it last became resident. -/
def writtenSinceLoad : History σ → Ptr → Bool
  | [], _ => false
  | t :: h, q => writesTo t q || (!decide (Loads t q) && writtenSinceLoad h q)

/-- The number of evictions of a page for which `writtenSinceLoad` says `b`. -/
noncomputable def evictions (b : Bool) : History σ → ℕ
  | [] => 0
  | t :: h => evictions b h + {q | Evicts t q ∧ writtenSinceLoad h q = b}.ncard

def framesInUse (memsize : ℕ) (coremap : ℕ → Frame) : ℕ :=
  ((Finset.range memsize).filter fun f => (coremap f).inUse = true).card

/-- The counters, flags and frames of `s` are what the history `h` says. -/
structure Exact (memsize : ℕ) (h : History σ) (s : Sim σ) : Prop where
  ref : s.counters.ref.toInt = h.length
  hit : s.counters.hit.toInt = h.countP hits
  hit_add_miss : s.counters.hit.toInt + s.counters.miss.toInt = s.counters.ref.toInt
  miss : s.counters.miss.toInt = s.counters.evictClean.toInt + s.counters.evictDirty.toInt +
    framesInUse memsize s.coremap
  full : ∀ t ∈ h, ∀ q, Evicts t q → ∀ f < memsize, (t.before.coremap f).inUse = true
  dirty : ∀ q, (s.entry q).Valid →
    ((s.entry q).frame &&& pgDirty ≠ 0 ↔ writtenSinceLoad h q = true)
  evictClean : s.counters.evictClean.toInt = evictions false h
  evictDirty : s.counters.evictDirty.toInt = evictions true h

/-! ## One reference -/

variable {pol : Policy σ} {memsize frame : ℕ} {h : History σ} {s s' : Sim σ} {r : Reference}
  {p : Ptr} {a : Pager}

theorem framesInUse_claim (coremap : ℕ → Frame) (hlt : frame < memsize) :
    framesInUse memsize (Function.update coremap frame ⟨true, some p⟩) =
      framesInUse memsize coremap + if (coremap frame).inUse = true then 0 else 1 := by
  have hset : ((Finset.range memsize).filter fun f =>
      (Function.update coremap frame ⟨true, some p⟩ f).inUse = true) =
      insert frame ((Finset.range memsize).filter fun f => (coremap f).inUse = true) := by
    ext f
    by_cases hf : f = frame
    · subst hf
      simp [hlt]
    · simp [hf]
  unfold framesInUse
  rw [hset]
  split
  · rename_i huse
    rw [Finset.insert_eq_of_mem (by simp [hlt, huse]), Nat.add_zero]
  · rename_i huse
    rw [Finset.card_insert_of_notMem (by simp [huse])]

/-- The transition of a hit: nothing comes or goes. -/
structure IsHit (p : Ptr) (t : Lts.Transition (Sim σ) Reference) : Prop where
  before : (t.before.pager.page p).valid = true
  valid : ∀ q, (t.after.pager.page q).valid = (t.before.pager.page q).valid
  dirty : ∀ q, (t.after.pager.page q).dirty =
    ((t.before.pager.page q).dirty || (decide (q = p) && decide (Writes t.event.type)))

/-- The transition of a miss: the page of `p` comes into `frame`, and what was there goes. -/
structure IsLoad (frame : ℕ) (p : Ptr) (t : Lts.Transition (Sim σ) Reference) : Prop where
  before : (t.before.pager.page p).valid = false
  valid : ∀ q, (t.after.pager.page q).valid = true ↔
    q = p ∨ (t.before.pager.page q).valid = true ∧ (t.before.pager.page q).frame ≠ frame
  dirty : ∀ q, (t.after.pager.page q).dirty =
    if q = p then decide (Writes t.event.type) else (t.before.pager.page q).dirty

section Transition
variable {t : Lts.Transition (Sim σ) Reference}

theorem loads_iff (q : Ptr) : Loads t q ↔
    (t.before.pager.page q).valid = false ∧ (t.after.pager.page q).valid = true := by
  unfold Loads
  rw [PgtblEntry.valid_iff, PgtblEntry.valid_iff, Bool.not_eq_true]
  rfl

theorem evicts_iff (q : Ptr) : Evicts t q ↔
    (t.before.pager.page q).valid = true ∧ (t.after.pager.page q).valid = false := by
  unfold Evicts
  rw [PgtblEntry.valid_iff, PgtblEntry.valid_iff, Bool.not_eq_true]
  rfl

theorem hits_eq (hp : entryOf t.event.vaddr = some p) :
    hits t = (t.before.pager.page p).valid := by
  unfold hits
  rw [hp, Option.any_some, Bool.eq_iff_iff, decide_eq_true_eq, PgtblEntry.valid_iff]
  rfl

theorem writesTo_eq (hp : entryOf t.event.vaddr = some p) (q : Ptr) :
    writesTo t q = (decide (q = p) && decide (Writes t.event.type)) := by
  unfold writesTo
  simp only [hp, Option.some_inj, eq_comm]

theorem IsHit.not_evicts (ht : IsHit p t) (q : Ptr) : ¬ Evicts t q := by
  intro hev
  rw [evicts_iff, ht.valid] at hev
  exact absurd (hev.1.symm.trans hev.2) (by decide)

theorem IsHit.not_loads (ht : IsHit p t) (q : Ptr) : ¬ Loads t q := by
  intro hload
  rw [loads_iff, ht.valid] at hload
  exact absurd (hload.1.symm.trans hload.2) (by decide)

theorem IsHit.of_touch {s s' : Sim σ} {r : Reference} (hv : (s.pager.page p).valid = true)
    (hpage : s'.pager.page = (s.pager.countHit.touch p (decide (Writes r.type))).page) :
    IsHit p ⟨s, r, s'⟩ where
  before := hv
  valid q := by
    show (s'.pager.page q).valid = _
    rw [hpage]
    exact touch_valid (a := s.pager.countHit) hv q
  dirty q := by
    show (s'.pager.page q).dirty = _
    rw [hpage]
    exact touch_dirty (a := s.pager.countHit) q

theorem IsLoad.of_load {s s' : Sim σ} {r : Reference} {a' : Pager} {vaddr : BitVec 64}
    (hv : (s.pager.page p).valid = false) (hvac : Vacated frame s.pager a')
    (hpage : s'.pager.page =
      ((a'.load frame p vaddr).touch p (decide (Writes r.type))).page) :
    IsLoad frame p ⟨s, r, s'⟩ where
  before := hv
  valid q := by
    show (s'.pager.page q).valid = true ↔ _
    rw [hpage]
    exact hvac.load_valid q
  dirty q := by
    show (s'.pager.page q).dirty = _
    rw [hpage]
    exact hvac.load_dirty q

/-- What goes is what was in the frame. -/
theorem IsLoad.evicts_iff (ht : IsLoad frame p t) (q : Ptr) : Evicts t q ↔
    (t.before.pager.page q).valid = true ∧ (t.before.pager.page q).frame = frame := by
  rw [Paging.evicts_iff, ← Bool.not_eq_true (t.after.pager.page q).valid, ht.valid]
  constructor
  · rintro ⟨hv, hgone⟩
    refine ⟨hv, ?_⟩
    by_contra hf
    exact hgone (.inr ⟨hv, hf⟩)
  · rintro ⟨hv, hf⟩
    refine ⟨hv, ?_⟩
    rintro (rfl | ⟨-, hne⟩)
    · exact absurd (ht.before.symm.trans hv) (by decide)
    · exact hne hf

theorem IsLoad.loads_iff (ht : IsLoad frame p t) (q : Ptr) : Loads t q ↔ q = p := by
  rw [Paging.loads_iff, ht.valid]
  constructor
  · rintro ⟨hv, rfl | ⟨hv', -⟩⟩
    · rfl
    · exact absurd (hv.symm.trans hv') (by decide)
  · rintro rfl
    exact ⟨ht.before, .inl rfl⟩

end Transition

/-! ## The invariant -/

/-- The counters modulo `2 ^ 32`, and the dirty bits. -/
structure Counted (memsize : ℕ) (h : History σ) (s : Sim σ) : Prop where
  ref : s.counters.ref = BitVec.ofNat 32 h.length
  hit : s.counters.hit = BitVec.ofNat 32 (h.countP hits)
  miss : s.counters.miss = BitVec.ofNat 32 (h.countP fun t => !hits t)
  clean : s.counters.evictClean = BitVec.ofNat 32 (evictions false h)
  evictDirty : s.counters.evictDirty = BitVec.ofNat 32 (evictions true h)
  balance : (h.countP fun t => !hits t) =
    evictions false h + evictions true h + framesInUse memsize s.coremap
  dirty : ∀ q, (s.pager.page q).valid = true → (s.pager.page q).dirty = writtenSinceLoad h q
  full : ∀ t ∈ h, ∀ q, Evicts t q → ∀ f < memsize, (t.before.coremap f).inUse = true

/-- The dirty bits follow the history, over a hit and over a load. -/
theorem IsHit.dirty_eq (ht : IsHit p ⟨s, r, s'⟩) (hp : entryOf r.vaddr = some p)
    (hd : ∀ q, (s.pager.page q).valid = true → (s.pager.page q).dirty = writtenSinceLoad h q)
    (q : Ptr) (hq : (s'.pager.page q).valid = true) :
    (s'.pager.page q).dirty = writtenSinceLoad (⟨s, r, s'⟩ :: h) q := by
  unfold writtenSinceLoad
  rw [writesTo_eq (t := ⟨s, r, s'⟩) hp, ht.dirty q, hd q ((ht.valid q).symm.trans hq),
    decide_eq_false (ht.not_loads q), Bool.not_false, Bool.true_and, Bool.or_comm]

theorem IsLoad.dirty_eq (ht : IsLoad frame p ⟨s, r, s'⟩) (hp : entryOf r.vaddr = some p)
    (hd : ∀ q, (s.pager.page q).valid = true → (s.pager.page q).dirty = writtenSinceLoad h q)
    (q : Ptr) (hq : (s'.pager.page q).valid = true) :
    (s'.pager.page q).dirty = writtenSinceLoad (⟨s, r, s'⟩ :: h) q := by
  unfold writtenSinceLoad
  rw [writesTo_eq (t := ⟨s, r, s'⟩) hp, ht.dirty q]
  by_cases hqp : q = p
  · simp [hqp, (ht.loads_iff p).2 rfl]
  · rcases (ht.valid q).1 hq with rfl | ⟨hv, -⟩
    · exact absurd rfl hqp
    · simp [hqp, ht.loads_iff, hd q hv]

theorem evictions_hit (ht : IsHit p ⟨s, r, s'⟩) (b : Bool) :
    evictions b (⟨s, r, s'⟩ :: h) = evictions b h := by
  have hset : {q | Evicts ⟨s, r, s'⟩ q ∧ writtenSinceLoad h q = b} = ∅ := by
    ext q
    simp [ht.not_evicts q]
  rw [evictions, hset, Set.ncard_empty, Nat.add_zero]

/-- A load into a frame that holds no page evicts nothing. -/
theorem evictions_free (ht : IsLoad frame p ⟨s, r, s'⟩) (hinv : s.pager.Inv memsize)
    (hfree : (s.coremap frame).inUse = false) (b : Bool) :
    evictions b (⟨s, r, s'⟩ :: h) = evictions b h := by
  have hset : {q | Evicts ⟨s, r, s'⟩ q ∧ writtenSinceLoad h q = b} = ∅ := by
    ext q
    simp only [Set.mem_ofPred_eq, Set.mem_empty_iff_false, iff_false, ht.evicts_iff]
    rintro ⟨⟨hv, rfl⟩, -⟩
    exact Bool.false_ne_true
      (hfree.symm.trans (congrArg Frame.inUse (hinv.resident q hv)))
  rw [evictions, hset, Set.ncard_empty, Nat.add_zero]

/-- A load into the frame of `bye` evicts its page, and nothing else. -/
theorem evictions_evict (ht : IsLoad frame p ⟨s, r, s'⟩) (hinv : s.pager.Inv memsize) {bye : Ptr}
    (huse : (s.coremap frame).inUse = true) (hbye : (s.coremap frame).pte = some bye) (b : Bool) :
    evictions b (⟨s, r, s'⟩ :: h) =
      evictions b h + if writtenSinceLoad h bye = b then 1 else 0 := by
  obtain ⟨-, q, hq, hqv, hqf⟩ := hinv.owned frame huse
  obtain rfl : bye = q := Option.some.inj (hbye.symm.trans hq)
  have hmem : ∀ r', Evicts ⟨s, r, s'⟩ r' ↔ r' = bye := by
    intro r'
    rw [ht.evicts_iff]
    refine ⟨fun ⟨hv, hf⟩ => hinv.frame_inj hv hqv (hf.trans hqf.symm), ?_⟩
    rintro rfl
    exact ⟨hqv, hqf⟩
  rw [evictions]
  congr 1
  split
  · rename_i hb
    have hset : {q | Evicts ⟨s, r, s'⟩ q ∧ writtenSinceLoad h q = b} = {bye} := by
      ext r'
      simp only [Set.mem_ofPred_eq, Set.mem_singleton_iff, hmem]
      refine ⟨And.left, ?_⟩
      rintro rfl
      exact ⟨rfl, hb⟩
    rw [hset, Set.ncard_singleton]
  · rename_i hb
    have hset : {q | Evicts ⟨s, r, s'⟩ q ∧ writtenSinceLoad h q = b} = ∅ := by
      ext r'
      simp only [Set.mem_ofPred_eq, Set.mem_empty_iff_false, iff_false, hmem]
      rintro ⟨rfl, hb'⟩
      exact hb hb'
    rw [hset, Set.ncard_empty]

theorem countP_cons_hit {t : Lts.Transition (Sim σ) Reference} (ht : hits t = true) :
    (t :: h).countP hits = h.countP hits + 1 ∧
      ((t :: h).countP fun t => !hits t) = h.countP fun t => !hits t := by
  simp [ht]

theorem countP_cons_miss {t : Lts.Transition (Sim σ) Reference} (ht : hits t = false) :
    (t :: h).countP hits = h.countP hits ∧
      ((t :: h).countP fun t => !hits t) = (h.countP fun t => !hits t) + 1 := by
  simp [ht]

theorem ofNat_succ (n : ℕ) : BitVec.ofNat 32 n + 1 = BitVec.ofNat 32 (n + 1) :=
  (BitVec.ofNat_add n 1).symm

/-- A load that evicts a page, which is dirty or not as `d` says, or none. -/
theorem Counted.load {d : Option Bool} (hc : Counted memsize h s) (ht : IsLoad frame p ⟨s, r, s'⟩)
    (hp : entryOf r.vaddr = some p) (hv : (s.pager.page p).valid = false) (hlt : frame < memsize)
    (hcore : s'.coremap = Function.update s.coremap frame ⟨true, some p⟩)
    (hctr : s'.counters = match d with
      | none => s.counters.countRef.countMiss
      | some true => s.counters.countRef.countMiss.countDirty
      | some false => s.counters.countRef.countMiss.countClean)
    (huse : (s.coremap frame).inUse = d.isSome)
    (hev : ∀ b, evictions b (⟨s, r, s'⟩ :: h) = evictions b h + if d = some b then 1 else 0)
    (hfull : ∀ q, Evicts ⟨s, r, s'⟩ q → ∀ f < memsize, (s.coremap f).inUse = true) :
    Counted memsize (⟨s, r, s'⟩ :: h) s' := by
  obtain ⟨hhits, hmisses⟩ := countP_cons_miss (h := h) ((hits_eq (t := ⟨s, r, s'⟩) hp).trans hv)
  obtain ⟨href, hhit, hmiss, hclean, hdirty⟩ : s'.counters.ref = s.counters.ref + 1 ∧
      s'.counters.hit = s.counters.hit ∧ s'.counters.miss = s.counters.miss + 1 ∧
      s'.counters.evictClean =
        s.counters.evictClean + BitVec.ofNat 32 (if d = some false then 1 else 0) ∧
      s'.counters.evictDirty =
        s.counters.evictDirty + BitVec.ofNat 32 (if d = some true then 1 else 0) := by
    rw [hctr]
    rcases d with _ | _ | _ <;>
      simp [Counters.countRef, Counters.countMiss, Counters.countDirty, Counters.countClean]
  refine ⟨?_, ?_, ?_, ?_, ?_, ?_, ht.dirty_eq hp hc.dirty, ?_⟩
  · rw [href, List.length_cons, ← ofNat_succ, ← hc.ref]
  · rw [hhit, hhits, ← hc.hit]
  · rw [hmiss, hmisses, ← ofNat_succ, ← hc.miss]
  · rw [hclean, hev, BitVec.ofNat_add, ← hc.clean]
  · rw [hdirty, hev, BitVec.ofNat_add, ← hc.evictDirty]
  · rw [hmisses, hev, hev, hcore, framesInUse_claim _ hlt, hc.balance, huse]
    rcases d with _ | _ | _ <;> simp <;> omega
  · intro t hmem q hevt
    rcases List.mem_cons.1 hmem with rfl | hmem
    · exact hfull q hevt
    · exact hc.full t hmem q hevt

/-- **One reference keeps the counters right.** -/
theorem counted_step (hok : pol.Ok memsize) (hmem : memsize ≤ 2 ^ 19)
    (hinv : s.pager.Inv memsize) (hc : Counted memsize h s) (hs : step pol memsize s r s') :
    Counted memsize (⟨s, r, s'⟩ :: h) s' := by
  obtain ⟨p, a', hp, href, heq⟩ := step_refer hok hmem hs
  have hpage : s'.pager.page = a'.page := (congrArg Pager.page heq).trans (bump_page _ _ _)
  have hcore : s'.coremap = a'.coremap := (congrArg Pager.coremap heq).trans (bump_coremap _ _ _)
  have hctr : s'.counters = a'.counters := (congrArg Pager.counters heq).trans (bump_counters _ _ _)
  cases href with
  | hit hv =>
    have ht : IsHit p ⟨s, r, s'⟩ := .of_touch hv hpage
    obtain ⟨hhits, hmisses⟩ := countP_cons_hit (h := h) ((hits_eq (t := ⟨s, r, s'⟩) hp).trans hv)
    have hctr : s'.counters = s.counters.countRef.countHit := hctr
    have hcore : s'.coremap = s.coremap := hcore
    refine ⟨?_, ?_, ?_, ?_, ?_, ?_, ht.dirty_eq hp hc.dirty, ?_⟩
    · rw [hctr, List.length_cons, ← ofNat_succ, ← hc.ref]; rfl
    · rw [hctr, hhits, ← ofNat_succ, ← hc.hit]; rfl
    · rw [hctr, hmisses, ← hc.miss]; rfl
    · rw [hctr, evictions_hit ht, ← hc.clean]; rfl
    · rw [hctr, evictions_hit ht, ← hc.evictDirty]; rfl
    · rw [hmisses, evictions_hit ht, evictions_hit ht, hcore]
      exact hc.balance
    · intro t hmem q hev
      rcases List.mem_cons.1 hmem with rfl | hmem
      · exact absurd hev (ht.not_evicts q)
      · exact hc.full t hmem q hev
  | @free frame hv hlt hfree =>
    have ht : IsLoad frame p ⟨s, r, s'⟩ := .of_load hv (vacated_free hinv hfree) hpage
    refine hc.load (d := none) ht hp hv hlt hcore hctr hfree (fun b => ?_) fun q hevt => ?_
    · rw [evictions_free ht hinv hfree]
      rfl
    · obtain ⟨hqv, rfl⟩ := (ht.evicts_iff q).1 hevt
      have hres := congrArg Frame.inUse (hinv.resident q hqv)
      exact absurd (hfree.symm.trans hres) Bool.false_ne_true
  | @evict frame bye a₁ hv hlt hall hbye hevict =>
    have ht : IsLoad frame p ⟨s, r, s'⟩ :=
      .of_load hv (vacated_evict hinv (hall frame hlt) hbye hevict) hpage
    obtain ⟨hcore₁, -, hctr₁, -⟩ := evictFrame_some hevict
    refine hc.load (d := some (writtenSinceLoad h bye)) ht hp hv hlt ?_ ?_
      (hall frame hlt) (fun b => ?_) fun _ _ => hall
    · rw [hcore, touch_coremap, load_coremap, hcore₁]
      rfl
    · -- the dirty bit tells which of the two counters it is
      obtain ⟨-, q, hq, hqv, -⟩ := hinv.owned frame (hall frame hlt)
      obtain rfl : bye = q := Option.some.inj (hbye.symm.trans hq)
      have hctr : s'.counters = if (s.pager.page bye).dirty = true
          then s.counters.countRef.countMiss.countDirty
          else s.counters.countRef.countMiss.countClean := hctr.trans hctr₁
      rw [hctr, hc.dirty bye hqv]
      cases writtenSinceLoad h bye <;> rfl
    · rw [evictions_evict ht hinv (hall frame hlt) hbye]
      exact congrArg _ (if_congr Option.some_inj.symm rfl rfl)

theorem counted_start {swapsize : BitVec 32} {physmem file : Bytes.Mem} {policy : σ}
    (hs : start swapsize physmem file policy = some s) : Counted memsize [] s := by
  obtain ⟨hpage, hcore, hctr⟩ := start_pager hs
  have hcore : s.coremap = fun _ => ⟨false, none⟩ := hcore
  have hctr : s.counters = ⟨0, 0, 0, 0, 0⟩ := hctr
  refine ⟨by rw [hctr]; rfl, by rw [hctr]; rfl, by rw [hctr]; rfl, by rw [hctr]; rfl,
    by rw [hctr]; rfl, ?_, fun q hq => ?_, fun t ht => ?_⟩
  · rw [hcore]
    simp [evictions, framesInUse]
  · rw [hpage] at hq
    cases hq
  · cases ht

theorem Run.counted (hok : pol.Ok memsize) (hmem : memsize ≤ 2 ^ 19) (hr : Run pol memsize h s) :
    s.pager.Inv memsize ∧ Counted memsize h s := by
  obtain ⟨swapsize, physmem, file, policy, s₀, hs₀, hr⟩ := hr
  exact Lts.Run.invariant_past (I := fun h s => s.pager.Inv memsize ∧ Counted memsize h s)
    ⟨inv_start hs₀, counted_start hs₀⟩
    (fun h s r s' ⟨hinv, hc⟩ hs => ⟨inv_step hok hmem hinv hs, counted_step hok hmem hinv hc hs⟩)
    hr

/-! ## Below `2 ^ 31` references -/

theorem toInt_ofNat {n : ℕ} (hn : n < 2 ^ 31) : (BitVec.ofNat 32 n).toInt = n := by
  have hnat : (BitVec.ofNat 32 n).toNat = n := by
    rw [BitVec.toNat_ofNat]
    exact Nat.mod_eq_of_lt (by omega)
  rw [BitVec.toInt_eq_toNat_of_lt (by rw [hnat]; omega), hnat]

theorem Counted.evictions_le (hc : Counted memsize h s) (b : Bool) :
    evictions b h ≤ h.length := by
  have hle := List.countP_le_length (p := fun t => !hits t) (l := h)
  have hbal := hc.balance
  cases b <;> omega

/-- **The statistics are exact** after every run of fewer than `2 ^ 31` references. -/
theorem Run.exact (hok : pol.Ok memsize) (hmem : memsize ≤ 2 ^ 19) (hr : Run pol memsize h s)
    (hlen : h.length < 2 ^ 31) : Exact memsize h s := by
  obtain ⟨-, hc⟩ := hr.counted hok hmem
  have hhit : s.counters.hit.toInt = h.countP hits := by
    rw [hc.hit, toInt_ofNat (lt_of_le_of_lt List.countP_le_length hlen)]
  have hmiss : s.counters.miss.toInt = h.countP fun t => !hits t := by
    rw [hc.miss, toInt_ofNat (lt_of_le_of_lt List.countP_le_length hlen)]
  have href : s.counters.ref.toInt = h.length := by rw [hc.ref, toInt_ofNat hlen]
  have hclean : s.counters.evictClean.toInt = evictions false h := by
    rw [hc.clean, toInt_ofNat (lt_of_le_of_lt (hc.evictions_le false) hlen)]
  have hdirty : s.counters.evictDirty.toInt = evictions true h := by
    rw [hc.evictDirty, toInt_ofNat (lt_of_le_of_lt (hc.evictions_le true) hlen)]
  refine ⟨href, hhit, ?_, ?_, hc.full, fun q hq => ?_, hclean, hdirty⟩
  · have hlen := List.length_eq_countP_add_countP hits (l := h)
    rw [hhit, hmiss, href, hlen]
    simp
  · rw [hmiss, hclean, hdirty, hc.balance]
    simp
  · rw [ne_eq, and_pgDirty, Bool.not_eq_false]
    show (s.pager.page q).dirty = true ↔ _
    rw [hc.dirty q (PgtblEntry.valid_iff.1 hq)]

/-- With one frame and the fifo policy: a write to page 0, and a read of page 1 that evicts it. -/
theorem Run.exact_evict : ∃ h s,
    replay (fifo 1) 1 [⟨'S', 0, Io.whole⟩, ⟨'L', 0x1000, Io.whole⟩] (exStart 0) = some s ∧
      h.length < 2 ^ 31 ∧ Exact 1 h s := by
  obtain ⟨s, hs⟩ : ∃ s,
      replay (fifo 1) 1 [⟨'S', 0, Io.whole⟩, ⟨'L', 0x1000, Io.whole⟩] (exStart 0) = some s :=
    Option.isSome_iff_exists.1 (by decide)
  obtain ⟨h, hr, hevents⟩ := replay_run (exStart_start 0) hs
  have hlen : h.length = 2 := by simpa using congrArg List.length hevents
  have hlt : h.length < 2 ^ 31 := by omega
  exact ⟨h, s, hs, hlt, Run.exact (fifo_ok 1) (by decide) hr hlt⟩

end Cscc69.Paging
