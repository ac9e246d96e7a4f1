import Cscc69.Paging.Statistics

/-!
# The oldest page

`fifo_evict` never looks at a page: it returns the frames in turn. That its index always is at the
oldest page is an invariant of runs, `InOrder`. As long as there are free frames the index is zero
and the frames before the first free one are loaded in the order of their numbers; from then on
every load goes where the index was, and starting from the index the frames come in the order of
their loads.

`fifo_oldest` is this for every call of `fifo_evict`.
-/

namespace Cscc69.Paging

open Pager

variable {σ : Type*} {memsize : ℕ}

/-- The number of the reference, counted from one, that last brought in the page of `q`. -/
def loadedAt : History σ → Ptr → ℕ
  | [], _ => 0
  | t :: h, q => if Loads t q then h.length + 1 else loadedAt h q

theorem loadedAt_le (h : History σ) (q : Ptr) : loadedAt h q ≤ h.length := by
  induction h with
  | nil => exact le_rfl
  | cons t h ih =>
    unfold loadedAt
    split
    · exact le_rfl
    · exact ih.trans (Nat.le_succ _)

/-- How far `f` is from the index, going around. -/
def turn (memsize index f : ℕ) : ℕ := if index ≤ f then f - index else f + memsize - index

theorem turn_self (memsize index : ℕ) : turn memsize index index = 0 := by
  simp [turn]

theorem turn_pos {index f : ℕ} (hi : index < memsize) (hne : f ≠ index) :
    0 < turn memsize index f := by
  unfold turn
  split <;> omega

theorem turn_lt {index f : ℕ} (hi : index < memsize) (hf : f < memsize) :
    turn memsize index f < memsize := by
  unfold turn
  split <;> omega

/-- As the index moves on, every other frame comes one step nearer and its own goes last. -/
theorem turn_next {index next f : ℕ} (hi : index < memsize)
    (hnext : next = if index + 1 < memsize then index + 1 else 0) (hf : f < memsize) :
    turn memsize next f + 1 = if f = index then memsize else turn memsize index f := by
  subst hnext
  unfold turn
  split_ifs <;> omega

/-- `fifo_init` -/
def fifoInit (hpos : 0 < memsize) : Fin memsize := ⟨0, hpos⟩

theorem fifoEvict_some {s s₁ : Sim (Fin memsize)} {frame : ℕ}
    (h : fifoEvict s = some (frame, s₁)) : frame = s.policy ∧
      (s₁.policy : ℕ) = if frame + 1 < memsize then frame + 1 else 0 := by
  obtain ⟨rfl, rfl⟩ := Prod.mk.inj (Option.some.inj h)
  refine ⟨rfl, ?_⟩
  dsimp only
  split
  · rfl
  · rfl

/-! ## The invariant -/

/-- Starting from the index, the frames in use come in the order in which their pages were
loaded. -/
structure InOrder (h : History (Fin memsize)) (s : Sim (Fin memsize)) : Prop where
  inv : s.pager.Inv memsize
  /-- the frames in use come before the free ones -/
  initial : ∀ f, (s.coremap f).inUse = true → ∀ g < f, (s.coremap g).inUse = true
  index : (∃ f < memsize, (s.coremap f).inUse = false) → (s.policy : ℕ) = 0
  order : ∀ q q', (s.pager.page q).valid = true → (s.pager.page q').valid = true →
    turn memsize s.policy (s.pager.page q).frame < turn memsize s.policy (s.pager.page q').frame →
      loadedAt h q < loadedAt h q'

variable {h : History (Fin memsize)} {s s' : Sim (Fin memsize)} {r : Reference} {p : Ptr}

theorem inOrder_start {swapsize : BitVec 32} {physmem file : Bytes.Mem} {hpos : 0 < memsize}
    (hs : start swapsize physmem file (fifoInit hpos) = some s) : InOrder [] s := by
  obtain ⟨hpage, hcore, -⟩ := start_pager hs
  refine ⟨inv_start hs, fun f hf => ?_, fun _ => ?_, fun q q' hq => ?_⟩
  · rw [show s.coremap = _ from hcore] at hf
    cases hf
  · obtain ⟨swap, -, rfl⟩ := Option.map_eq_some_iff.1 hs
    rfl
  · rw [hpage] at hq
    exact absurd hq (by decide)

/-! ## One reference -/

/-- What a load leaves of the order: the frame just filled comes last, and the rest stay as they
were. -/
theorem InOrder.load {frame : ℕ} (ho : InOrder h s) (ht : IsLoad frame p ⟨s, r, s'⟩)
    (hp : (s'.pager.page p).frame = frame)
    (hother : ∀ q ≠ p, (s'.pager.page q).frame = (s.pager.page q).frame)
    (hlast : ∀ f, (s.coremap f).inUse = true → f < memsize → f ≠ frame →
      turn memsize s'.policy f < turn memsize s'.policy frame)
    (hrest : ∀ f < memsize, ∀ f' < memsize, f ≠ frame → f' ≠ frame →
      turn memsize s'.policy f < turn memsize s'.policy f' →
        turn memsize s.policy f < turn memsize s.policy f') :
    ∀ q q', (s'.pager.page q).valid = true → (s'.pager.page q').valid = true →
      turn memsize s'.policy (s'.pager.page q).frame <
        turn memsize s'.policy (s'.pager.page q').frame →
      loadedAt (⟨s, r, s'⟩ :: h) q < loadedAt (⟨s, r, s'⟩ :: h) q' := by
  intro q q' hq hq' hlt
  unfold loadedAt
  simp only [ht.loads_iff]
  -- a page that was there before lies in another frame
  have hold : ∀ q ≠ p, (s'.pager.page q).valid = true →
      (s.pager.page q).valid = true ∧ (s.pager.page q).frame ≠ frame :=
    fun q hne hq => ((ht.valid q).1 hq).resolve_left hne
  by_cases hqp : q = p
  · subst hqp
    by_cases hqp' : q' = q
    · subst hqp'
      exact absurd hlt (lt_irrefl _)
    · obtain ⟨hv', hf'⟩ := hold q' hqp' hq'
      rw [hp, hother q' hqp'] at hlt
      have hres := congrArg Frame.inUse (ho.inv.resident q' hv')
      exact absurd (hlast _ hres (ho.inv.frame_lt hv') hf') (lt_asymm hlt)
  · obtain ⟨hv, hf⟩ := hold q hqp hq
    rw [if_neg hqp]
    by_cases hqp' : q' = p
    · rw [if_pos hqp']
      exact Nat.lt_succ_of_le (loadedAt_le h q)
    · obtain ⟨hv', hf'⟩ := hold q' hqp' hq'
      rw [if_neg hqp']
      rw [hother q hqp, hother q' hqp'] at hlt
      exact ho.order q q' hv hv'
        (hrest _ (ho.inv.frame_lt hv) _ (ho.inv.frame_lt hv') hf hf' hlt)

/-- A hit moves nothing. -/
theorem InOrder.hit (ho : InOrder h s) (ht : IsHit p ⟨s, r, s'⟩) (hinv : s'.pager.Inv memsize)
    (hframe : ∀ q, (s'.pager.page q).frame = (s.pager.page q).frame)
    (hcore : s'.coremap = s.coremap) (hpol : s'.policy = s.policy) :
    InOrder (⟨s, r, s'⟩ :: h) s' := by
  refine ⟨hinv, ?_, ?_, fun q q' hq hq' hlt => ?_⟩
  · rw [hcore]
    exact ho.initial
  · rw [hcore, hpol]
    exact ho.index
  · unfold loadedAt
    rw [if_neg (ht.not_loads q), if_neg (ht.not_loads q')]
    rw [ht.valid q] at hq
    rw [ht.valid q'] at hq'
    rw [hpol, hframe, hframe] at hlt
    exact ho.order q q' hq hq' hlt

/-- The frames before the first free one are those in use. -/
theorem InOrder.before_free {frame : ℕ} (ho : InOrder h s) (hfree : (s.coremap frame).inUse = false)
    {f : ℕ} (hf : (s.coremap f).inUse = true) : f < frame := by
  rcases lt_trichotomy f frame with hlt | rfl | hgt
  · exact hlt
  · exact absurd (hfree.symm.trans hf) Bool.false_ne_true
  · exact absurd (hfree.symm.trans (ho.initial f hf frame hgt)) Bool.false_ne_true

/-- **One reference keeps the order.** -/
theorem InOrder.step (hmem : memsize ≤ 2 ^ 19) (ho : InOrder h s)
    (hs : step (fifo memsize) memsize s r s') : InOrder (⟨s, r, s'⟩ :: h) s' := by
  have hinv' := inv_step (fifo_ok memsize) hmem ho.inv hs
  obtain ⟨p, s₁, s₂, hp, hplaced, href, hbump, -, hpol⟩ := step_placed (fifo_ok memsize) hmem hs
  obtain rfl : s₁ = s₂ := Option.some.inj href
  have hpage : s'.pager.page = s₁.pager.page := by rw [hbump, bump_page]
  have hcore : s'.coremap = s₁.pager.coremap := by
    rw [← bump_coremap p (decide (Writes r.type)), ← hbump]
    rfl
  cases hplaced with
  | hit hv hpager _ hpol₁ =>
    rw [hpager] at hcore
    refine ho.hit (.of_touch hv (by rw [hpage, hpager])) hinv' (fun q => ?_) hcore
      (hpol.trans hpol₁)
    rw [hpage, hpager, touch_frame]
    rfl
  | @free frame hv hfree hpager _ hpol₁ =>
    have hfree' := List.find?_some hfree
    rw [Bool.not_eq_true'] at hfree'
    have hlt := List.mem_range.1 (List.mem_of_find?_eq_some hfree)
    have hzero : (s.policy : ℕ) = 0 := ho.index ⟨frame, hlt, hfree'⟩
    have ht : IsLoad frame p ⟨s, r, s'⟩ :=
      .of_load hv (vacated_free ho.inv hfree') (by rw [hpage, hpager])
    have hpage' := hpage.trans (by rw [hpager, load_touch_page])
    rw [hpager, touch_coremap, load_coremap] at hcore
    have hturn : ∀ f, turn memsize s'.policy f = f := by
      intro f
      rw [hpol, hpol₁, hzero]
      simp [turn]
    refine ⟨hinv', fun f hf g hg => ?_, fun _ => ?_, ho.load ht ?_ (fun q hq => ?_) ?_ ?_⟩
    · rw [hcore] at hf ⊢
      exact initial_update ho.initial hfree f hf g hg
    · rw [hpol, hpol₁, hzero]
    · rw [hpage', Function.update_self]
    · rw [hpage', Function.update_of_ne hq]
      rfl
    · intro f hf _ _
      rw [hturn, hturn]
      exact ho.before_free hfree' hf
    · intro f _ f' _ _ _
      rw [hpol, hpol₁]
      exact id
  | @evict frame bye s₂ a' hv hall hev hbye hout hpager _ hpol₁ =>
    obtain ⟨hframe, hnext⟩ := fifoEvict_some hev
    rw [missed_policy] at hframe
    have hlt : frame < memsize := hframe ▸ s.policy.isLt
    have hvac := vacated_evict ho.inv (hall frame hlt) hbye hout
    have ht : IsLoad frame p ⟨s, r, s'⟩ := .of_load hv hvac (by rw [hpage, hpager])
    have hpage' := hpage.trans (by rw [hpager, load_touch_page])
    rw [hpager, touch_coremap, load_coremap, hvac.coremap] at hcore
    have hused : ∀ f < memsize, (s'.coremap f).inUse = true := by
      intro f hf
      rw [hcore]
      by_cases hff : f = frame
      · rw [hff, Function.update_self]
      · rw [Function.update_of_ne hff]
        exact hall f hf
    rw [← hpol₁, ← hpol] at hnext
    refine ⟨hinv', fun f hf g hg => ?_, fun hfree => ?_, ho.load ht ?_ (fun q hq => ?_) ?_ ?_⟩
    · exact hused g (hg.trans (hinv'.owned f hf).1)
    · obtain ⟨f, hf, hfree⟩ := hfree
      exact absurd (hfree.symm.trans (hused f hf)) Bool.false_ne_true
    · rw [hpage', Function.update_self]
    · rw [hpage', Function.update_of_ne hq, hvac.frame_eq]
    · intro f _ hf hne
      have hnear := turn_next hlt hnext hf
      have hself := turn_next hlt hnext hlt
      have hle := turn_lt hlt hf
      rw [if_neg hne] at hnear
      rw [if_pos rfl] at hself
      omega
    · intro f hf f' hf' hne hne' hlt'
      have hnear := turn_next hlt hnext hf
      have hnear' := turn_next hlt hnext hf'
      rw [if_neg hne] at hnear
      rw [if_neg hne'] at hnear'
      rw [← hframe]
      omega

/-! ## Runs -/

/-- **Fifo evicts the oldest page.** Whenever `fifo_evict` is called, it returns the frame whose
page was loaded before all other pages in memory. -/
theorem fifo_oldest (hpos : 0 < memsize) (hmem : memsize ≤ 2 ^ 19) {swapsize : BitVec 32}
    {physmem file : Bytes.Mem} {s₀ : Sim (Fin memsize)}
    (hs₀ : start swapsize physmem file (fifoInit hpos) = some s₀)
    (hr : Lts.Run (step (fifo memsize) memsize) s₀ h s) (hcall : EvictCall memsize s r p) :
    ∃ frame s₁ q, fifoEvict (s.missed p) = some (frame, s₁) ∧ frame < memsize ∧
      (s.coremap frame).pte = some q ∧ (s.entry q).Valid ∧
      ∀ q', (s.entry q').Valid → q' ≠ q → loadedAt h q < loadedAt h q' := by
  have ho : InOrder h s := Lts.Run.invariant_past (I := InOrder) (inOrder_start hs₀)
    (fun _ _ _ _ ho hs => ho.step hmem hs) hr
  obtain ⟨⟨frame, s₁⟩, hev⟩ : ∃ x, fifoEvict (s.missed p) = some x := ⟨_, rfl⟩
  have hframe := (fifoEvict_some hev).1
  rw [missed_policy] at hframe
  have hlt : frame < memsize := hframe ▸ s.policy.isLt
  obtain ⟨-, q, hq, hqv, hqf⟩ := ho.inv.owned frame (hcall.full _ hlt)
  refine ⟨frame, s₁, q, hev, hlt, hq, PgtblEntry.valid_iff.2 hqv, fun q' hq' hne => ?_⟩
  have hqv' := PgtblEntry.valid_iff.1 hq'
  have hne' : (s.pager.page q').frame ≠ frame := fun heq =>
    hne (ho.inv.frame_inj hqv' hqv (heq.trans hqf.symm))
  refine ho.order q q' hqv hqv' ?_
  rw [hqf, ← hframe, turn_self]
  exact turn_pos hlt hne'

/-- Three pages with two frames: the third one makes the first one go. -/
theorem fifo_oldest_three : ∃ (h : History (Fin 2)) (s : Sim (Fin 2)) (p : Ptr),
    h.length = 2 ∧ entryOf 0x2000 = some p ∧ ∃ frame s₁ q,
      fifoEvict (s.missed p) = some (frame, s₁) ∧ frame < 2 ∧ (s.coremap frame).pte = some q ∧
        (s.entry q).Valid ∧ ∀ q', (s.entry q').Valid → q' ≠ q → loadedAt h q < loadedAt h q' := by
  obtain ⟨p, hp⟩ : ∃ p, entryOf 0x2000 = some p := entryOf_isSome (by decide)
  obtain ⟨s, hs, hany⟩ : ∃ s : Sim (Fin 2),
      replay (fifo 2) 2 [⟨'S', 0, Io.whole⟩, ⟨'L', 0x1000, Io.whole⟩]
        (exStart (fifoInit two_pos)) = some s ∧ ((entryOf 0x2000).any fun p =>
          decide (¬ (s.entry p).Valid ∧ ∀ i < (2 : ℕ), (s.coremap i).inUse = true)) = true :=
    (Option.any_eq_true ..).1 (by decide)
  rw [hp, Option.any_some, decide_eq_true_eq] at hany
  obtain ⟨h, hr, hevents⟩ := replay_reaches hs
  have hlen : h.length = 2 := by simpa using congrArg List.length hevents
  exact ⟨h, s, p, hlen, hp, fifo_oldest two_pos (by decide) (exStart_start (fifoInit two_pos)) hr
    (r := ⟨'L', 0x2000, Io.whole⟩) ⟨hp, hany.1, hany.2⟩⟩

end Cscc69.Paging
