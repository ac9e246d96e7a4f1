import Cscc69.Paging.Clock
import Cscc69.Paging.Demand

/-!
# The clock policy over a run

`FollowsClock` compares a run with the clock algorithm of the textbooks: after every call of
`clock_evict` the hand is at the frame after the victim, the reference bits are those of the pages
referenced since they were loaded or the hand last cleared them, and the victims are the same.

As long as no frame has to be given up, the hand stays at the first frame and all bits are set, as
they are in the algorithm (`Fresh`). The first victim is found once around, and then `clock_ref`
sets the bit of the page after it, which the hand has just cleared and which was not referenced
(`step_strays`). So the policy follows the algorithm just on the traces that fit in memory, or if
there is a single frame (`clock_iff`).
-/

namespace Cscc69.Paging

open SecondChance Pager

variable {fuel memsize : ℕ} {h : History ℕ} {s s' s₀ : Sim ℕ} {r : Reference} {p : Ptr}

/-! ## What a run shows of the policy -/

/-- What `clock_evict` returns during a transition, if it is called. -/
def evictOf (fuel memsize : ℕ) (t : Lts.Transition (Sim ℕ) Reference) : Option (ℕ × Sim ℕ) :=
  (entryOf t.event.vaddr).bind fun p =>
    if ¬ (t.before.entry p).Valid ∧ ∀ i < memsize, (t.before.coremap i).inUse = true then
      clockEvict memsize fuel (t.before.missed p)
    else none

/-- The hand clears the bit of the page of `q`. -/
def clears (fuel memsize : ℕ) (t : Lts.Transition (Sim ℕ) Reference) (q : Ptr) : Bool :=
  (evictOf fuel memsize t).any fun r => t.before.refBit q && !r.2.refBit q

/-- Whether the page of `q` has been referenced since the hand last cleared its bit. Its last load
was a reference too. -/
def usedSince (fuel memsize : ℕ) : History ℕ → Ptr → Bool
  | [], _ => false
  | t :: h, q => decide (entryOf t.event.vaddr = some q) ||
      (usedSince fuel memsize h q && !clears fuel memsize t q)

/-- The victims of a run, in order. -/
def victims (fuel memsize : ℕ) (h : History ℕ) : List ℕ :=
  (h.filterMap fun t => (evictOf fuel memsize t).map Prod.fst).reverse

/-- The references of a run, in order. -/
def events (h : History ℕ) : List Reference := (h.map (·.event)).reverse

/-- The run that `h` records is one of the clock algorithm. -/
structure FollowsClock (fuel memsize : ℕ) (h : History ℕ) (s : Sim ℕ) : Prop where
  hand : ∀ t ∈ h, ∀ frame s₁, evictOf fuel memsize t = some (frame, s₁) →
    s₁.policy = (frame + 1) % memsize
  bits : ∀ q, (s.entry q).Valid → ((s.entry q).Referenced ↔ usedSince fuel memsize h q = true)
  victims : victims fuel memsize h = (Clock.serve memsize (pages (events h))).1

/-- All along the trace the simulator follows the clock algorithm. -/
def ClockCorrect (fuel memsize : ℕ) (s₀ : Sim ℕ) (rs : List Reference) : Prop :=
  ∀ rs₁, rs₁ <+: rs → ∃ h s, Lts.Run (step (clock fuel memsize) memsize) s₀ h s ∧
    events h = rs₁ ∧ FollowsClock fuel memsize h s

theorem evictOf_eq (hp : entryOf r.vaddr = some p) : evictOf fuel memsize ⟨s, r, s'⟩ =
    if (s.pager.page p).valid = false ∧ ∀ i < memsize, (s.coremap i).inUse = true then
      clockEvict memsize fuel (s.missed p) else none := by
  unfold evictOf
  simp only [hp, Option.bind_some, PgtblEntry.valid_iff, Bool.not_eq_true]
  rfl

theorem events_cons (s : Sim ℕ) (r : Reference) (s' : Sim ℕ) (h : History ℕ) :
    events (⟨s, r, s'⟩ :: h) = events h ++ [r] := by
  simp [events]

theorem pages_events (hp : entryOf r.vaddr = some p) (s s' : Sim ℕ) (h : History ℕ) :
    pages (events (⟨s, r, s'⟩ :: h)) = pages (events h) ++ [p] := by
  rw [events_cons, pages_append hp]

/-- One more transition. -/
theorem FollowsClock.snoc (hf : FollowsClock fuel memsize h s) (hp : entryOf r.vaddr = some p)
    (hhand : ∀ frame s₁, evictOf fuel memsize ⟨s, r, s'⟩ = some (frame, s₁) →
      s₁.policy = (frame + 1) % memsize)
    (hbits : ∀ q, (s'.entry q).Valid →
      ((s'.entry q).Referenced ↔ usedSince fuel memsize (⟨s, r, s'⟩ :: h) q = true))
    (hvictim : (evictOf fuel memsize ⟨s, r, s'⟩).map Prod.fst =
      ((Clock.serve memsize (pages (events h))).2.request memsize p).1) :
    FollowsClock fuel memsize (⟨s, r, s'⟩ :: h) s' where
  hand := by
    rintro t ht
    rcases List.mem_cons.1 ht with rfl | ht
    · exact hhand
    · exact hf.hand t ht
  bits := hbits
  victims := by
    have hv : Paging.victims fuel memsize (⟨s, r, s'⟩ :: h) = Paging.victims fuel memsize h ++
        ((evictOf fuel memsize ⟨s, r, s'⟩).map Prod.fst).toList := by
      unfold Paging.victims
      rw [List.filterMap_cons]
      cases (evictOf fuel memsize ⟨s, r, s'⟩).map Prod.fst with
      | none => simp
      | some f => simp
    rw [hv, pages_events hp, Clock.serve_append, hf.victims, hvictim]

/-! ## The clock of the textbooks, with all bits set -/

/-- The clock that has the pages of `s` in its frames, their bits set, and the hand at the first
frame. -/
def clockOf (s : Sim ℕ) : Clock Ptr where
  page f := if (s.coremap f).inUse then (s.coremap f).pte else none
  bit f := (s.coremap f).inUse
  hand := 0

theorem clockOf_page {f : ℕ} (h : (clockOf s).page f = some p) :
    (s.coremap f).inUse = true ∧ (s.coremap f).pte = some p := by
  unfold clockOf at h
  dsimp only at h
  split at h
  · rename_i huse
    exact ⟨huse, h⟩
  · cases h

theorem clockOf_congr (hcore : s'.coremap = s.coremap) : clockOf s' = clockOf s := by
  unfold clockOf
  rw [hcore]

theorem clockOf_put {frame : ℕ}
    (hcore : s'.coremap = Function.update s.coremap frame ⟨true, some p⟩) :
    clockOf s' = (clockOf s).put frame p := by
  unfold clockOf Clock.put
  rw [hcore]
  congr 1
  · funext f
    by_cases hf : f = frame
    · subst hf
      simp
    · simp [hf]
  · funext f
    by_cases hf : f = frame
    · subst hf
      simp
    · simp [hf]

theorem request_hit (hinv : s.pager.Inv memsize) (hv : (s.pager.page p).valid = true) :
    (clockOf s).request memsize p = (none, clockOf s) := by
  have hlt := hinv.frame_lt hv
  have hres := hinv.resident p hv
  have hsome : ((List.range memsize).find? fun f => (clockOf s).page f = some p).isSome := by
    rw [List.find?_isSome]
    have huse : (s.coremap (s.pager.page p).frame).inUse = true := congrArg Frame.inUse hres
    have hpte : (s.coremap (s.pager.page p).frame).pte = some p := congrArg Frame.pte hres
    exact ⟨_, List.mem_range.2 hlt, by simp [clockOf, huse, hpte]⟩
  obtain ⟨f, hf⟩ := Option.isSome_iff_exists.1 hsome
  have hpage : (clockOf s).page f = some p := by simpa using List.find?_some hf
  unfold Clock.request
  rw [hf]
  dsimp only
  have hbit : Function.update (clockOf s).bit f true = (clockOf s).bit := by
    rw [← show (clockOf s).bit f = true from (clockOf_page hpage).1, Function.update_eq_self]
  rw [hbit]

theorem find_absent (hinv : s.pager.Inv memsize) (hv : (s.pager.page p).valid = false) :
    ((List.range memsize).find? fun f => (clockOf s).page f = some p) = none := by
  refine List.find?_eq_none.2 fun f _ hpage => ?_
  obtain ⟨huse, hpte⟩ := clockOf_page (of_decide_eq_true hpage)
  obtain ⟨-, q, hq, hqv, -⟩ := hinv.owned f huse
  obtain rfl : p = q := Option.some.inj (hpte.symm.trans hq)
  exact Bool.false_ne_true (hv.symm.trans hqv)

/-- The algorithm sees the same free frames. -/
theorem isNone_page (hinv : s.pager.Inv memsize) (f : ℕ) :
    ((clockOf s).page f).isNone = !(s.coremap f).inUse := by
  unfold clockOf
  dsimp only
  cases huse : (s.coremap f).inUse with
  | true =>
    obtain ⟨-, q, hq, -⟩ := hinv.owned f huse
    rw [if_pos rfl, show (s.coremap f).pte = some q from hq]
    rfl
  | false => rfl

theorem request_free {frame : ℕ} (hinv : s.pager.Inv memsize)
    (hv : (s.pager.page p).valid = false)
    (hfree : ((List.range memsize).find? fun i => !(s.coremap i).inUse) = some frame) :
    (clockOf s).request memsize p = (none, (clockOf s).put frame p) := by
  unfold Clock.request
  rw [find_absent hinv hv]
  simp only [isNone_page hinv, hfree]

theorem request_full (hinv : s.pager.Inv memsize) (hv : (s.pager.page p).valid = false)
    (hall : ∀ i < memsize, (s.coremap i).inUse = true) :
    (clockOf s).request memsize p =
      (some (victim memsize 0 (clockOf s).bit),
        ((clockOf s).sweep memsize).put (victim memsize 0 (clockOf s).bit) p) := by
  unfold Clock.request
  rw [find_absent hinv hv]
  simp only [isNone_page hinv, find_none hall]
  rfl

/-! ## The coremap's pointers -/

/-- A valid entry is in a table that is there. -/
theorem table_of_valid {σ : Type*} {s : Sim σ} {q : Ptr} (hv : (s.pager.page q).valid = true) :
    (s.pgdir q.1).isSome = true := by
  cases htable : s.pgdir q.1 with
  | some _ => rfl
  | none =>
    have hentry : s.entry q = .fresh := by
      unfold Sim.entry
      rw [htable]
      rfl
    rw [pager_page, hentry] at hv
    exact absurd hv (by decide)

theorem pteAt_of_inUse (hinv : s.pager.Inv memsize) {f : ℕ} (huse : (s.coremap f).inUse = true) :
    ∃ q, s.pteAt memsize f = some q ∧ (s.pager.page q).valid = true ∧
      (s.pager.page q).frame = f := by
  obtain ⟨hlt, q, hq, hqv, hqf⟩ := hinv.owned f huse
  refine ⟨q, ?_, hqv, hqf⟩
  unfold Sim.pteAt
  rw [if_pos hlt, show (s.coremap f).pte = some q from hq]
  simp [table_of_valid hqv]

theorem pteAt_valid (hinv : s.pager.Inv memsize) {q : Ptr} (hv : (s.pager.page q).valid = true) :
    s.pteAt memsize (s.pager.page q).frame = some q := by
  obtain ⟨q', hq', hv', hf'⟩ := pteAt_of_inUse hinv
    (congrArg Frame.inUse (hinv.resident q hv) : (s.coremap _).inUse = true)
  rw [hq', hinv.frame_inj hv' hv hf']

theorem missed_inv (hinv : s.pager.Inv memsize) (p : Ptr) :
    (s.missed p).pager.Inv memsize := by
  rw [missed_pager]
  exact ⟨hinv.owned, hinv.resident⟩

/-- With all frames in use each has an entry of its own. -/
theorem distinct_of_full (hinv : s.pager.Inv memsize) (hhand : s.policy < memsize)
    (hall : ∀ i < memsize, (s.coremap i).inUse = true) : Distinct memsize s where
  hand := hhand
  some f hf := by
    obtain ⟨q, hq, -⟩ := pteAt_of_inUse hinv (hall f hf)
    exact ⟨q, hq⟩
  inj f hf g hg heq := by
    obtain ⟨q, hq, -, hqf⟩ := pteAt_of_inUse hinv (hall f hf)
    obtain ⟨q', hq', -, hqf'⟩ := pteAt_of_inUse hinv (hall g hg)
    rw [hq, hq'] at heq
    rw [← hqf, ← hqf', Option.some.inj heq]

/-- **The call of a state with all bits set**: the hand goes all around, from the first frame, and
ends at the second. -/
theorem clockEvict_around (hinv : s.pager.Inv memsize) (hpos : 0 < memsize)
    (hfuel : memsize < fuel) (hhand : s.policy = 0)
    (hall : ∀ i < memsize, (s.coremap i).inUse = true)
    (hbits : ∀ q, (s.pager.page q).valid = true → s.refBit q = true) (p : Ptr) :
    ∃ s₂, clockEvict memsize fuel (s.missed p) = some (0, s₂) ∧ s₂.policy = 1 % memsize ∧
      ∀ q, (s.pager.page q).valid = true → s₂.refBit q = false := by
  have hinv' := missed_inv hinv p
  have hd : Distinct memsize (s.missed p) := by
    refine distinct_of_full hinv' ?_ ?_
    · rw [missed_policy, hhand]
      exact hpos
    · rw [missed_coremap]
      exact hall
  have hset : ∀ f < memsize, (s.missed p).bitAt memsize f = true := by
    intro f hf
    obtain ⟨q, hq, hqv, -⟩ := pteAt_of_inUse (f := f) hinv'
      (by rw [missed_coremap]; exact hall f hf)
    rw [missed_pager] at hqv
    rw [Sim.bitAt, hq, Option.any_some, missed_refBit]
    exact hbits q hqv
  obtain ⟨frame, s₂, hev, hs⟩ := clockEvict_sweeps hd
    (Nat.lt_of_le_of_lt (passed_spec _ _ _).1 hfuel)
  have hpassed : passed memsize (s.missed p).policy ((s.missed p).bitAt memsize) = memsize :=
    passed_full hset
  have hframe : frame = 0 := by
    rw [hs.victim, SecondChance.victim, hpassed, missed_policy, hhand, Nat.zero_add, Nat.mod_self]
  subst hframe
  refine ⟨s₂, hev, ?_, fun q hq => ?_⟩
  · rw [hs.hand, hpassed, missed_policy, hhand, Nat.zero_add, Nat.add_comm,
      Nat.add_mul_mod_self_right]
  · have hq' : ((s.missed p).pager.page q).valid = true := by
      rw [missed_pager]
      exact hq
    have hswept := swept_full hset hd.hand (hinv'.frame_lt hq')
    have hcleared := hs.clears.cleared _ q hswept (pteAt_valid hinv' hq')
    unfold Sim.refBit
    rw [hcleared]
    simp [PgtblEntry.clearRef, pgRef]

/-! ## While nothing has to go -/

/-- The run follows the clock algorithm, with the hand at the first frame and all bits set. -/
structure Fresh (fuel memsize : ℕ) (h : History ℕ) (s : Sim ℕ) : Prop where
  tracked : Tracked memsize (pages (events h)).reverse s.pager
  follows : FollowsClock fuel memsize h s
  hand : s.policy = 0
  /-- the frames in use come before the free ones -/
  initial : ∀ f, (s.coremap f).inUse = true → ∀ g < f, (s.coremap g).inUse = true
  bits : ∀ q, (s.pager.page q).valid = true → s.refBit q = true
  agrees : (Clock.serve memsize (pages (events h))).2 = clockOf s

theorem fresh_start {swapsize : BitVec 32} {physmem file : Bytes.Mem}
    (hs : start swapsize physmem file clockInit = some s) : Fresh fuel memsize [] s := by
  obtain ⟨hpage, hcore, -⟩ := start_pager hs
  have hcore : s.coremap = fun _ => ⟨false, none⟩ := hcore
  have hnone : ∀ q, (s.pager.page q).valid = false := fun q => by rw [hpage]; rfl
  refine ⟨start_tracked hs, ⟨fun t ht => absurd ht List.not_mem_nil, fun q hq => ?_, rfl⟩, ?_,
    fun f hf => ?_, fun q hq => ?_, ?_⟩
  · exact absurd ((hnone q).symm.trans (PgtblEntry.valid_iff.1 hq)) Bool.false_ne_true
  · obtain ⟨swap, -, rfl⟩ := Option.map_eq_some_iff.1 hs
    rfl
  · rw [hcore] at hf
    cases hf
  · exact absurd ((hnone q).symm.trans hq) Bool.false_ne_true
  · unfold clockOf
    rw [hcore]
    rfl

/-- A page that is there, or a free frame: the policy is not called. -/
theorem evictOf_none (hp : entryOf r.vaddr = some p)
    (hno : (s.pager.page p).valid = true ∨ ∃ f < memsize, (s.coremap f).inUse = false)
    (s' : Sim ℕ) : evictOf fuel memsize ⟨s, r, s'⟩ = none := by
  rw [evictOf_eq hp, if_neg]
  rintro ⟨hv, hall⟩
  rcases hno with hv' | ⟨f, hlt, hfree⟩
  · exact Bool.false_ne_true (hv.symm.trans hv')
  · exact Bool.false_ne_true (hfree.symm.trans (hall f hlt))

/-- With one frame the new page sets the only bit that the sweep has cleared. -/
theorem sweep_put_one (hinv : s.pager.Inv 1) :
    ((clockOf s).sweep 1).put 0 p = (clockOf s).put 0 p := by
  unfold Clock.sweep Clock.put
  congr 1
  · funext f
    by_cases hf : f = 0
    · rw [hf, Function.update_self, Function.update_self]
    · have hout : (s.coremap f).inUse = false := by
        by_contra huse
        rw [Bool.not_eq_false] at huse
        exact hf (Nat.lt_one_iff.1 (hinv.owned f huse).1)
      rw [Function.update_of_ne hf, Function.update_of_ne hf]
      simp [clockOf, hout]
  · exact Nat.mod_one _

/-- What placing a page keeps of it, if that takes no victim or there is but one frame. -/
structure Stays (fuel memsize : ℕ) (s : Sim ℕ) (r : Reference) (p : Ptr) (s₁ : Sim ℕ) : Prop where
  hand : s₁.policy = 0
  initial : ∀ f, (s₁.coremap f).inUse = true → ∀ g < f, (s₁.coremap g).inUse = true
  bits : ∀ q, (s₁.pager.page q).valid = true → s₁.refBit q = true
  agrees : ∀ s', (clockOf s).request memsize p =
    ((evictOf fuel memsize ⟨s, r, s'⟩).map Prod.fst, clockOf s₁)
  evict : ∀ s' frame s₂, evictOf fuel memsize ⟨s, r, s'⟩ = some (frame, s₂) →
    s₂.policy = (frame + 1) % memsize
  other : ∀ s' q, q ≠ p → (s₁.pager.page q).valid = true →
    (s.pager.page q).valid = true ∧ clears fuel memsize ⟨s, r, s'⟩ q = false

theorem Fresh.stays (hpos : 0 < memsize) (hfuel : memsize < fuel) (hf : Fresh fuel memsize h s)
    (hp : entryOf r.vaddr = some p) {s₁ : Sim ℕ}
    (hplaced : (clock fuel memsize).Placed memsize r.io.pageout p r.vaddr (decide (Writes r.type))
      s s₁)
    (hfit : memsize = 1 ∨ (s.pager.page p).valid = true ∨
      ∃ f < memsize, (s.coremap f).inUse = false) : Stays fuel memsize s r p s₁ := by
  have hinv := hf.tracked.inv
  have hrefer := hplaced.refer (clock_ok fuel memsize)
  have hold : ∀ q, q ≠ p → (s₁.pager.page q).valid = true → (s.pager.page q).valid = true :=
    fun q hq hv => (hrefer.valid_or hinv hv).resolve_left hq
  have hbits : s₁.refBit = Function.update s.refBit p true →
      ∀ q, (s₁.pager.page q).valid = true → s₁.refBit q = true := by
    intro hbit q hq
    rw [hbit]
    by_cases hqp : q = p
    · rw [hqp, Function.update_self]
    · rw [Function.update_of_ne hqp]
      exact hf.bits q (hold q hqp hq)
  have hkept : (∀ s', evictOf fuel memsize ⟨s, r, s'⟩ = none) → ∀ s' q, q ≠ p →
      (s₁.pager.page q).valid = true →
      (s.pager.page q).valid = true ∧ clears fuel memsize ⟨s, r, s'⟩ q = false := by
    intro hnone s' q hqp hq
    refine ⟨hold q hqp hq, ?_⟩
    unfold clears
    rw [hnone, Option.any_none]
  cases hplaced with
  | hit hv hpager hbit hpol =>
    have hcore : s₁.coremap = s.coremap := congrArg Pager.coremap hpager
    have hnone : ∀ s', evictOf fuel memsize ⟨s, r, s'⟩ = none := evictOf_none hp (.inl hv)
    refine ⟨hpol.trans hf.hand, by rw [hcore]; exact hf.initial, hbits hbit, fun s' => ?_,
      fun s' frame s₂ hev => ?_, hkept hnone⟩
    · rw [hnone, request_hit hinv hv, clockOf_congr hcore]
      rfl
    · rw [hnone] at hev
      cases hev
  | @free frame hv hfree hpager hbit hpol =>
    have hcore : s₁.coremap = Function.update s.coremap frame ⟨true, some p⟩ :=
      congrArg Pager.coremap hpager
    have hfree' := List.find?_some hfree
    rw [Bool.not_eq_true'] at hfree'
    have hnone : ∀ s', evictOf fuel memsize ⟨s, r, s'⟩ = none := evictOf_none hp
      (.inr ⟨frame, List.mem_range.1 (List.mem_of_find?_eq_some hfree), hfree'⟩)
    refine ⟨hpol.trans hf.hand, fun f huse g hg => ?_, hbits hbit, fun s' => ?_,
      fun s' frame s₂ hev => ?_, hkept hnone⟩
    · rw [hcore] at huse ⊢
      exact initial_update hf.initial hfree f huse g hg
    · rw [hnone, request_free hinv hv hfree, clockOf_put hcore]
      rfl
    · rw [hnone] at hev
      cases hev
  | @evict frame bye s₂ a' hv hall hev hbye hout hpager hbit hpol =>
    obtain rfl : memsize = 1 := by
      rcases hfit with hone | hv' | ⟨f, hlt, hfree⟩
      · exact hone
      · exact absurd (hv.symm.trans hv') Bool.false_ne_true
      · exact absurd (hfree.symm.trans (hall f hlt)) Bool.false_ne_true
    obtain ⟨s₃, hev', hhand, -⟩ := clockEvict_around hinv hpos hfuel hf.hand hall hf.bits p
    obtain ⟨rfl, rfl⟩ := Prod.mk.inj (Option.some.inj (hev'.symm.trans hev))
    have hcore : s₁.coremap = Function.update s.coremap 0 ⟨true, some p⟩ := by
      refine (congrArg Pager.coremap hpager).trans ?_
      rw [touch_coremap, load_coremap, (evictFrame_some hout).1]
      rfl
    have hinv₁ := hrefer.inv hinv
    have hone : ∀ q, (s₁.pager.page q).valid = true → q = p := by
      intro q hq
      refine hinv₁.frame_inj hq hrefer.valid ?_
      rw [Nat.lt_one_iff.1 (hinv₁.frame_lt hq), Nat.lt_one_iff.1 (hinv₁.frame_lt hrefer.valid)]
    have hcall : ∀ s', evictOf fuel 1 ⟨s, r, s'⟩ = some (0, s₃) := by
      intro s'
      rw [evictOf_eq hp, if_pos ⟨hv, hall⟩, hev']
    refine ⟨hpol.trans hhand, fun f huse g hg => ?_, fun q hq => ?_, fun s' => ?_,
      fun s' frame s₂ hev => ?_, fun s' q hqp hq => absurd (hone q hq) hqp⟩
    · have hlt := (hinv₁.owned f huse).1
      omega
    · rw [hbit, hone q hq, Function.update_self]
    · have hvictim : victim 1 0 (clockOf s).bit = 0 := Nat.mod_one _
      rw [hcall, request_full hinv hv hall, hvictim, sweep_put_one hinv, clockOf_put hcore]
      rfl
    · rw [hcall] at hev
      obtain ⟨rfl, rfl⟩ := Prod.mk.inj (Option.some.inj hev)
      exact hhand

theorem Stays.inUse_zero {s₁ : Sim ℕ} (h : Stays fuel memsize s r p s₁)
    (hinv : s₁.pager.Inv memsize) (hv : (s₁.pager.page p).valid = true) :
    (s₁.coremap 0).inUse = true := by
  have huse : (s₁.coremap (s₁.pager.page p).frame).inUse = true :=
    congrArg Frame.inUse (hinv.resident p hv)
  rcases Nat.eq_zero_or_pos (s₁.pager.page p).frame with hzero | hpos
  · rwa [hzero] at huse
  · exact h.initial _ huse 0 hpos

/-- **A reference that takes no victim**, or any reference with one frame, is served. -/
theorem Fresh.exists_step (hmem : memsize ≤ 2 ^ 19) (hpos : 0 < memsize) (hfuel : memsize < fuel)
    (hf : Fresh fuel memsize h s) (hp : entryOf r.vaddr = some p)
    (hfit : memsize = 1 ∨ (s.pager.page p).valid = true ∨
      ∃ f < memsize, (s.coremap f).inUse = false) :
    ∃ s', Paging.step (clock fuel memsize) memsize s r s' := by
  have hok := clock_ok fuel memsize
  have hinv := hf.tracked.inv
  refine accessMem_isSome hok hmem hf.tracked hp (fun hcall => ?_) fun s₁ hplaced => ?_
  · obtain ⟨s₂, hev, -⟩ := clockEvict_around hinv hpos hfuel hf.hand hcall.full hf.bits p
    exact ⟨_, hev⟩
  · have hrefer := hplaced.refer hok
    have hstays := hf.stays hpos hfuel hp hplaced hfit
    have hinv₁ := hrefer.inv hinv
    obtain ⟨q, hq, -⟩ := pteAt_of_inUse hinv₁ (hstays.inUse_zero hinv₁ hrefer.valid)
    rw [← hstays.hand] at hq
    exact ⟨_, Option.map_eq_some_iff.2 ⟨q, hq, rfl⟩⟩

/-- It keeps the invariant. -/
theorem Fresh.step (hmem : memsize ≤ 2 ^ 19) (hpos : 0 < memsize) (hfuel : memsize < fuel)
    (hf : Fresh fuel memsize h s) (hp : entryOf r.vaddr = some p)
    (hfit : memsize = 1 ∨ (s.pager.page p).valid = true ∨
      ∃ f < memsize, (s.coremap f).inUse = false)
    (hs : Paging.step (clock fuel memsize) memsize s r s') :
    Fresh fuel memsize (⟨s, r, s'⟩ :: h) s' := by
  have hok := clock_ok fuel memsize
  obtain ⟨p', s₁, s₂, hp', hplaced, href, hbump, hbit, hpol⟩ := step_placed hok hmem hs
  obtain rfl : p = p' := Option.some.inj (hp.symm.trans hp')
  have hrefer := hplaced.refer hok
  have hstays := hf.stays hpos hfuel hp hplaced hfit
  have hpager₂ : s₂.pager = s₁.pager := (hok.ref href).pager
  obtain ⟨q, -, rfl⟩ := Option.map_eq_some_iff.1 href
  rw [hpager₂] at hbump
  have hpage : s'.pager.page = s₁.pager.page := by rw [hbump, bump_page]
  have hcore : s'.coremap = s₁.coremap := (congrArg Pager.coremap hbump).trans (bump_coremap _ _ _)
  have hbits : ∀ q', (s'.pager.page q').valid = true → s'.refBit q' = true := by
    intro q' hq'
    rw [hpage] at hq'
    rw [hbit, refBit_orFrame]
    by_cases hqq : q' = q
    · rw [hqq, Function.update_self]
      simp [pgRef]
    · rw [Function.update_of_ne hqq]
      exact hstays.bits q' hq'
  have hused : ∀ q', (s'.pager.page q').valid = true →
      usedSince fuel memsize (⟨s, r, s'⟩ :: h) q' = true := by
    intro q' hq'
    unfold usedSince
    simp only [hp]
    by_cases hqp : q' = p
    · simp [hqp]
    · rw [hpage] at hq'
      obtain ⟨hv, hkept⟩ := hstays.other s' q' hqp hq'
      have hprev := (hf.follows.bits q' (PgtblEntry.valid_iff.2 hv)).1
        (referenced_iff.2 (hf.bits q' hv))
      rw [hprev, hkept]
      simp
  refine ⟨?_, hf.follows.snoc hp (hstays.evict s') (fun q' hq' => ?_) ?_, hpol.trans hstays.hand,
    by rw [hcore]; exact hstays.initial, hbits, ?_⟩
  · rw [pages_events hp, List.reverse_append, hbump]
    exact (hf.tracked.refer hrefer).bump p _
  · have hv := PgtblEntry.valid_iff.1 hq'
    exact iff_of_true (referenced_iff.2 (hbits q' hv)) (hused q' hv)
  · rw [hf.agrees, hstays.agrees s']
  · rw [pages_events hp, Clock.serve_append, hf.agrees, hstays.agrees s', clockOf_congr hcore]

/-! ## The first victim -/

/-- **`clock_ref` goes astray.** With more than one frame, the first time a page has to go the bit
of another page is set that has not been referenced. -/
theorem step_strays (hmem : memsize ≤ 2 ^ 19) (hmany : 2 ≤ memsize) (hfuel : memsize < fuel)
    (hf : Fresh fuel memsize h s) (hcall : EvictCall memsize s r p)
    (hs : step (clock fuel memsize) memsize s r s') :
    ¬ FollowsClock fuel memsize (⟨s, r, s'⟩ :: h) s' := by
  intro hfollows
  have hok := clock_ok fuel memsize
  have hinv := hf.tracked.inv
  have hv : (s.pager.page p).valid = false := by
    have hmiss := hcall.miss
    rwa [PgtblEntry.valid_iff, Bool.not_eq_true] at hmiss
  obtain ⟨s₃, hev, hhand, hcleared⟩ := clockEvict_around hinv (Nat.zero_lt_of_lt hmany) hfuel
    hf.hand hcall.full hf.bits p
  rw [Nat.mod_eq_of_lt hmany] at hhand
  -- the page in the second frame
  obtain ⟨q, -, hqv, hqf⟩ := pteAt_of_inUse hinv (hcall.full 1 hmany)
  have hqp : q ≠ p := by
    rintro rfl
    exact Bool.false_ne_true (hv.symm.trans hqv)
  obtain ⟨p', s₁, s₂, hp', hplaced, href, hbump, hbit, -⟩ := step_placed hok hmem hs
  obtain rfl : p = p' := Option.some.inj (hcall.entry.symm.trans hp')
  have hrefer := hplaced.refer hok
  have hinv₁ := hrefer.inv hinv
  have hpager₂ : s₂.pager = s₁.pager := (hok.ref href).pager
  obtain ⟨q', hq', rfl⟩ := Option.map_eq_some_iff.1 href
  have hpage : s'.pager.page = s₁.pager.page := by rw [hbump, bump_page, hpager₂]
  cases hplaced with
  | hit hv' _ _ _ => exact Bool.false_ne_true (hv.symm.trans hv')
  | free _ hfree _ _ _ =>
    rw [find_none hcall.full] at hfree
    cases hfree
  | @evict frame bye s₂ a' _ hall hev' hbye hout hpager hbit₁ hpol₁ =>
    obtain ⟨rfl, rfl⟩ := Prod.mk.inj (Option.some.inj (hev.symm.trans hev'))
    have hvac := vacated_evict hinv (hall 0 (Nat.zero_lt_of_lt hmany)) hbye hout
    -- it stays in memory, and the hand is at its frame
    have hq₁ : (s₁.pager.page q).valid = true := by
      rw [hpager]
      exact (hvac.load_valid q).2 (.inr ⟨hqv, by rw [hqf]; exact Nat.one_ne_zero⟩)
    have hqf₁ : (s₁.pager.page q).frame = 1 := by
      rw [hpager, load_touch_page, Function.update_of_ne hqp, hvac.frame_eq, hqf]
    have hat := pteAt_valid hinv₁ hq₁
    rw [hqf₁, ← hhand, ← hpol₁] at hat
    obtain rfl : q' = q := Option.some.inj (hq'.symm.trans hat)
    have hset : (s'.entry q').Referenced := by
      rw [referenced_iff, hbit, refBit_orFrame, Function.update_self]
      simp [pgRef]
    have hvalid : (s'.entry q').Valid := by
      rw [PgtblEntry.valid_iff, ← pager_page, hpage]
      exact hq₁
    have hused := (hfollows.bits q' hvalid).1 hset
    -- but the hand has cleared its bit, and the reference was to another page
    have hclears : clears fuel memsize ⟨s, r, s'⟩ q' = true := by
      unfold clears
      rw [evictOf_eq hcall.entry, if_pos ⟨hv, hcall.full⟩, hev, Option.any_some,
        hf.bits q' hqv, hcleared q' hqv]
      rfl
    unfold usedSince at hused
    simp only [hcall.entry] at hused
    rw [hclears] at hused
    simp [hqp.symm] at hused

/-! ## Traces -/

/-- Whether the next page fits in memory, if no page has had to go so far. -/
theorem Fresh.fits_iff (hf : Fresh fuel memsize h s)
    (hall : ∀ q ∈ pages (events h), (s.pager.page q).valid = true) (p : Ptr) :
    (pages (events h) ++ [p]).toFinset.card ≤ memsize ↔
      (s.pager.page p).valid = true ∨ ∃ f < memsize, (s.coremap f).inUse = false := by
  have hres : (pages (events h)).toFinset = resident s.pager := by
    ext q
    rw [List.mem_toFinset, mem_resident]
    exact ⟨hall q, fun hq => List.mem_reverse.1 (hf.tracked.known q hq)⟩
  have hset : (pages (events h) ++ [p]).toFinset = insert p (resident s.pager) := by
    rw [← hres]
    ext q
    simp
  have hcard : (resident s.pager).card = framesInUse memsize s.coremap :=
    card_resident hf.tracked.inv
  rw [hset]
  by_cases hv : (s.pager.page p).valid = true
  · have hle : framesInUse memsize s.coremap ≤ memsize := by
      refine (Finset.card_filter_le _ _).trans ?_
      rw [Finset.card_range]
    rw [Finset.insert_eq_of_mem (mem_resident.2 hv), hcard]
    exact iff_of_true hle (.inl hv)
  · rw [Finset.card_insert_of_notMem (mt mem_resident.1 hv), hcard, Nat.succ_le_iff]
    constructor
    · intro hlt
      by_contra hnone
      rw [not_or] at hnone
      refine absurd (framesInUse_full fun i hi => ?_) (Nat.ne_of_lt hlt)
      by_contra huse
      exact hnone.2 ⟨i, hi, Bool.eq_false_of_not_eq_true huse⟩
    · rintro (hv' | ⟨f, hlt, hfree⟩)
      · exact absurd hv' hv
      · exact framesInUse_lt hlt hfree

/-- A trace that the simulator gets through following the clock algorithm. -/
def Fits (memsize : ℕ) (rs : List Reference) : Prop :=
  memsize = 1 ∨ (pages rs).toFinset.card ≤ memsize

theorem Fits.of_append {rs rs' : List Reference} (h : Fits memsize (rs ++ rs')) :
    Fits memsize rs := by
  refine h.imp_right fun hcard => (Finset.card_le_card ?_).trans hcard
  intro q hq
  rw [List.mem_toFinset] at hq ⊢
  unfold pages at hq ⊢
  rw [List.filterMap_append]
  exact List.mem_append_left _ hq

section Traces
variable (hmem : memsize ≤ 2 ^ 19) (hpos : 1 ≤ memsize) (hfuel : memsize < fuel)
  (hs₀ : Fresh fuel memsize [] s₀)
include hmem hpos hfuel hs₀

/-- **While the trace fits**, it is served, and every run of it is fresh. -/
theorem fresh_run {rs : List Reference} (haddr : ∀ r ∈ rs, r.vaddr.toNat < 2 ^ 36)
    (hfits : Fits memsize rs) :
    (∃ h s, Lts.Run (step (clock fuel memsize) memsize) s₀ h s ∧ events h = rs) ∧
    ∀ h s, Lts.Run (step (clock fuel memsize) memsize) s₀ h s → events h = rs →
      Fresh fuel memsize h s ∧
        (memsize = 1 ∨ ∀ q ∈ pages (events h), (s.pager.page q).valid = true) := by
  induction rs using List.reverseRecOn with
  | nil =>
    refine ⟨⟨[], s₀, .nil, rfl⟩, fun h s hr hevents => ?_⟩
    cases hr with
    | nil => exact ⟨hs₀, .inr fun q hq => absurd hq List.not_mem_nil⟩
    | snoc _ _ =>
      rw [events_cons] at hevents
      exact absurd hevents (by simp)
  | append_singleton rs r ih =>
    obtain ⟨p, hp⟩ := entryOf_isSome (haddr r (by simp))
    obtain ⟨⟨h, s, hr, hevents⟩, hall⟩ := ih (fun r hr => haddr r (List.mem_append_left _ hr))
      hfits.of_append
    -- the page of the next reference fits in memory too
    have hfit : ∀ h s, Fresh fuel memsize h s → events h = rs →
        (memsize = 1 ∨ ∀ q ∈ pages (events h), (s.pager.page q).valid = true) →
        memsize = 1 ∨ (s.pager.page p).valid = true ∨
          ∃ f < memsize, (s.coremap f).inUse = false := by
      rintro h s hf rfl hkept
      rcases hfits with hone | hcard
      · exact .inl hone
      · refine hkept.imp_right fun hkept => (hf.fits_iff hkept p).1 ?_
        rwa [pages_append hp] at hcard
    constructor
    · obtain ⟨hf, hkept⟩ := hall h s hr hevents
      obtain ⟨s', hs'⟩ := hf.exists_step hmem hpos hfuel hp (hfit h s hf hevents hkept)
      exact ⟨_, s', hr.snoc hs', by rw [events_cons, hevents]⟩
    · intro h' s' hr' hevents'
      cases hr' with
      | nil => exact absurd hevents' (by simp [events])
      | @snoc h s _ e hr hs =>
        rw [events_cons] at hevents'
        obtain ⟨hevents, he⟩ := List.append_inj' hevents' rfl
        obtain rfl : e = r := by simpa using he
        obtain ⟨hf, hkept⟩ := hall h s hr hevents
        have hfit := hfit h s hf hevents hkept
        refine ⟨hf.step hmem hpos hfuel hp hfit hs, ?_⟩
        rcases hkept with hone | hkept
        · exact .inl hone
        rcases hfit with hone | hroom
        · exact .inl hone
        refine .inr fun q hq => ?_
        obtain ⟨p', a', hp', hrefer, hs'⟩ := step_refer (clock_ok fuel memsize) hmem hs
        obtain rfl : p = p' := Option.some.inj (hp.symm.trans hp')
        have hinv := hf.tracked.inv
        have hres : resident s'.pager = resident a' := by rw [hs', bump_resident]
        rw [pages_events hp, List.mem_append, List.mem_singleton] at hq
        rw [← mem_resident, hres]
        obtain ⟨hmem', hsame, -⟩ | ⟨-, -, hsame, -⟩ | ⟨hnot, hcard, -⟩ := hrefer.demand hinv
        · rw [hsame]
          rcases hq with hq | rfl
          · exact mem_resident.2 (hkept q hq)
          · exact hmem'
        · rw [hsame]
          rcases hq with hq | rfl
          · exact Finset.mem_insert_of_mem (mem_resident.2 (hkept q hq))
          · exact Finset.mem_insert_self _ _
        · -- no page has to go
          rcases hroom with hv | ⟨f, hlt, hfree⟩
          · exact absurd (mem_resident.2 hv) hnot
          · rw [card_resident hinv] at hcard
            exact absurd hcard (Nat.ne_of_lt (framesInUse_lt hlt hfree))

/-- **The first page that does not fit** leads the simulator astray. -/
theorem not_correct_of_not_fits {rs : List Reference} {r : Reference}
    (haddr : ∀ r' ∈ rs ++ [r], r'.vaddr.toNat < 2 ^ 36) (hfits : Fits memsize rs)
    (hover : ¬ Fits memsize (rs ++ [r])) : ¬ ClockCorrect fuel memsize s₀ (rs ++ [r]) := by
  intro hcorrect
  obtain ⟨p, hp⟩ := entryOf_isSome (haddr r (by simp))
  obtain ⟨h', s', hr', hevents', hfollows⟩ := hcorrect _ (List.prefix_refl _)
  cases hr' with
  | nil => exact absurd hevents' (by simp [events])
  | @snoc h s _ e hr hs =>
    rw [events_cons] at hevents'
    obtain ⟨hevents, he⟩ := List.append_inj' hevents' rfl
    obtain rfl : e = r := by simpa using he
    obtain ⟨hf, hkept⟩ := (fresh_run hmem hpos hfuel hs₀
      (fun r hr => haddr r (List.mem_append_left _ hr)) hfits).2 h s hr hevents
    have hone : memsize ≠ 1 := fun hone => hover (.inl hone)
    have hkept := hkept.resolve_left hone
    have hroom := mt (hf.fits_iff hkept p).2 fun hcard => hover (.inr (by
      rwa [pages_append hp, ← hevents]))
    rw [not_or] at hroom
    refine step_strays hmem (by omega) hfuel hf ⟨hp, ?_, fun i hi => ?_⟩ hs hfollows
    · rw [PgtblEntry.valid_iff]
      exact hroom.1
    · by_contra huse
      exact hroom.2 ⟨i, hi, Bool.eq_false_of_not_eq_true huse⟩

end Traces

/-- **The clock policy follows the clock algorithm** just on the traces that have no more pages than
there are frames, or if there is but one frame. -/
theorem clock_iff (hmem : memsize ≤ 2 ^ 19) (hpos : 1 ≤ memsize) (hfuel : memsize < fuel)
    {swapsize : BitVec 32} {physmem file : Bytes.Mem}
    (hs₀ : start swapsize physmem file clockInit = some s₀) {rs : List Reference}
    (haddr : ∀ r ∈ rs, r.vaddr.toNat < 2 ^ 36) :
    ClockCorrect fuel memsize s₀ rs ↔
      memsize = 1 ∨ (pages rs).toFinset.card ≤ memsize := by
  have hfresh : Fresh fuel memsize [] s₀ := fresh_start hs₀
  constructor
  · intro hcorrect
    induction rs using List.reverseRecOn with
    | nil => exact .inr (Nat.zero_le _)
    | append_singleton rs r ih =>
      have haddr' : ∀ r' ∈ rs, r'.vaddr.toNat < 2 ^ 36 :=
        fun r' hr' => haddr r' (List.mem_append_left _ hr')
      have hfits : Fits memsize rs := ih haddr' fun rs₁ hrs₁ =>
        hcorrect rs₁ (hrs₁.trans (List.prefix_append _ _))
      by_contra hover
      exact not_correct_of_not_fits hmem hpos hfuel hfresh haddr hfits hover hcorrect
  · rintro hfits rs₁ ⟨rs₂, rfl⟩
    obtain ⟨⟨h, s, hr, hevents⟩, hall⟩ := fresh_run hmem hpos hfuel hfresh
      (fun r hr => haddr r (List.mem_append_left _ hr)) (Fits.of_append hfits)
    exact ⟨h, s, hr, hevents, (hall h s hr hevents).1.follows⟩

/-- A read of the first, second or third page. -/
def exPageRead (n : Fin 3) : Reference := ⟨'L', BitVec.ofNat 64 (n * 4096), Io.whole⟩

/-- Two pages in two frames. -/
theorem clock_iff_two :
    ClockCorrect 3 2 (exStart clockInit) [exPageRead 0, exPageRead 1] :=
  (clock_iff (by decide) (by decide) (by decide) (exStart_start clockInit) (by decide)).2
    (.inr (by decide))

/-- **A third page in two frames**: the hand goes all around, takes the first frame and stands at
the second, whose bit it has cleared; `clock_ref` sets it again. -/
theorem third_page_strays :
    ¬ ClockCorrect 3 2 (exStart clockInit) ([exPageRead 0, exPageRead 1] ++ [exPageRead 2]) := by
  refine not_correct_of_not_fits (by decide) (by decide) (by decide)
    (fresh_start (exStart_start clockInit)) (by decide) (.inr (by decide)) ?_
  rintro (hone | hcard)
  · cases hone
  · exact absurd hcard (by decide)

end Cscc69.Paging
