import Cscc69.Paging.Residency
import Mathlib.Data.List.Induction

/-!
# What a reference finds in its page

The first four bytes of a frame count the writes to its page. `RoundTrip` says that each reference
of a trace finds there the number of the writes before it. A page that is loaded finds zero,
because `find_physpage` has overwritten `PG_ONSWAP` by the time it looks at it and fills the frame
with zeros; so a trace has the property exactly if no page is loaded that has been written before
(`roundTrip_iff`).

`Pager.Counts` is the invariant of such traces: every resident page holds its number of writes.
-/

namespace Cscc69.Paging

open Bytes Pager

variable {σ : Type*}

/-- The number of writes to the page of `p` in `rs`. -/
def writesBefore (rs : List Reference) (p : Ptr) : ℕ :=
  rs.countP fun r => decide (entryOf r.vaddr = some p) && decide (Writes r.type)

/-- Each reference finds in its page the number of writes to it so far. -/
def RoundTrip (pol : Policy σ) (memsize : ℕ) (s₀ : Sim σ) (rs : List Reference) : Prop :=
  ∀ rs₁ r rs₂ s ptr s₁ p, rs = rs₁ ++ r :: rs₂ → replay pol memsize rs₁ s₀ = some s →
    findPhyspage pol memsize r.io r.vaddr r.type s = some (ptr, s₁) →
    entryOf r.vaddr = some p → version s₁.physmem ptr = writesBefore rs₁ p % 2 ^ 32

/-- No reference finds its page absent after the page has been written, but for multiples of
`2 ^ 32` writes. -/
def LoadedUnwritten (pol : Policy σ) (memsize : ℕ) (s₀ : Sim σ) (rs : List Reference) : Prop :=
  ∀ rs₁ r rs₂ s p, rs = rs₁ ++ r :: rs₂ → replay pol memsize rs₁ s₀ = some s →
    entryOf r.vaddr = some p → ¬ (s.entry p).Valid → writesBefore rs₁ p % 2 ^ 32 = 0

/-! ## Frames -/

variable {memsize frame : ℕ} {io : Transfer} {p q : Ptr} {vaddr : BitVec 64} {write : Bool}
  {a a' : Pager}

/-- The `n` bytes at `i` in the frame of a page. -/
def Pager.field (a : Pager) (q : Ptr) (i n : ℕ) : ℕ :=
  Bytes.load a.physmem ((a.page q).frame * simpagesize + i) n

/-- The version counter of a page. -/
def Pager.version (a : Pager) (q : Ptr) : ℕ :=
  Bytes.load a.physmem ((a.page q).frame * simpagesize) 4

theorem version_initFrame (frame : ℕ) (vaddr : BitVec 64) (m : Mem) :
    Bytes.load (initFrame frame vaddr m) (frame * simpagesize) 4 = 0 := by
  unfold initFrame
  rw [load_store_of_disjoint (by omega), load_fill_zero le_rfl]
  show _ + 4 ≤ _ + 16
  omega

/-- Filling a frame changes no other frame. -/
theorem load_initFrame_of_ne {f i n : ℕ} (hf : f ≠ frame) (hin : i + n ≤ simpagesize)
    (vaddr : BitVec 64) (m : Mem) :
    Bytes.load (initFrame frame vaddr m) (f * simpagesize + i) n =
      Bytes.load m (f * simpagesize + i) n := by
  have hsize : simpagesize = 16 := rfl
  rw [hsize] at hin
  have hdisj : f * 16 + 16 ≤ frame * 16 ∨ frame * 16 + 16 ≤ f * 16 := by omega
  unfold initFrame
  rw [hsize, load_store_of_disjoint (by omega), load_fill_of_disjoint (by omega)]

/-- A page that is loaded holds what `init_frame` writes. -/
theorem Refer.field_load (href : Refer memsize io p vaddr write a a')
    (hv : (a.page p).valid = false) (i n : ℕ) : ∃ f m,
      a'.field p i n = Bytes.load (initFrame f vaddr m) (f * simpagesize + i) n := by
  have hload : ∀ (b : Pager) (f : ℕ), ((b.load f p vaddr).touch p write).field p i n =
      Bytes.load (initFrame f vaddr b.physmem) (f * simpagesize + i) n := by
    intro b f
    unfold Pager.field
    rw [load_touch_page, Function.update_self, touch_physmem, load_physmem]
  cases href with
  | hit hv' => exact absurd (hv.symm.trans hv') Bool.false_ne_true
  | free _ _ _ => exact ⟨_, _, hload _ _⟩
  | evict _ _ _ _ _ => exact ⟨_, _, hload _ _⟩

/-- It starts from zero. -/
theorem Refer.version_load (href : Refer memsize io p vaddr write a a')
    (hv : (a.page p).valid = false) : a'.version p = 0 := by
  obtain ⟨f, m, hfield⟩ := href.field_load hv 0 4
  exact hfield.trans (version_initFrame f vaddr m)

/-- A hit changes no memory. -/
theorem Refer.field_hit (href : Refer memsize io p vaddr write a a')
    (hv : (a.page p).valid = true) (i n : ℕ) : a'.field p i n = a.field p i n := by
  cases href with
  | hit _ =>
    unfold Pager.field
    rw [touch_frame]
    rfl
  | free hv' _ _ => exact absurd (hv'.symm.trans hv) (by decide)
  | evict hv' _ _ _ _ => exact absurd (hv'.symm.trans hv) (by decide)

/-- The other pages that are still resident keep their contents. -/
theorem Refer.field_other (href : Refer memsize io p vaddr write a a') (h : a.Inv memsize)
    (hqp : q ≠ p) (hq : (a'.page q).valid = true) {i n : ℕ} (hin : i + n ≤ simpagesize) :
    (a.page q).valid = true ∧ a'.field q i n = a.field q i n := by
  have hload : ∀ {b : Pager} {f : ℕ}, Vacated f a b → b.physmem = a.physmem →
      (((b.load f p vaddr).touch p write).page q).valid = true →
      (a.page q).valid = true ∧
        ((b.load f p vaddr).touch p write).field q i n = a.field q i n := by
    intro b f hvac hphys hq
    rcases (hvac.load_valid q).1 hq with rfl | ⟨hv, hf⟩
    · exact absurd rfl hqp
    · refine ⟨hv, ?_⟩
      unfold Pager.field
      rw [load_touch_page, Function.update_of_ne hqp, touch_physmem, load_physmem,
        hvac.frame_eq, load_initFrame_of_ne hf hin, hphys]
  cases href with
  | hit hv =>
    refine ⟨(touch_valid (a := a.countHit) hv q).symm.trans hq, ?_⟩
    unfold Pager.field
    rw [touch_frame]
    rfl
  | free hv hlt hfree => exact hload (vacated_free h hfree) rfl hq
  | evict hv hlt hall hbye hevict =>
    obtain ⟨-, hphys, -⟩ := evictFrame_some hevict
    exact hload (vacated_evict h (hall _ hlt) hbye hevict) hphys hq

theorem ptr_toNat (hmem : memsize ≤ 2 ^ 19) (h : a.Inv memsize) (hq : (a.page q).valid = true) :
    (BitVec.ofNat 32 ((a.page q).frame * simpagesize)).toNat =
      (a.page q).frame * simpagesize := by
  have hlt := h.frame_lt hq
  rw [BitVec.toNat_ofNat]
  show (a.page q).frame * 16 % 2 ^ 32 = (a.page q).frame * 16
  omega

theorem bump_physmem (hmem : memsize ≤ 2 ^ 19) (h : a.Inv memsize)
    (hp : (a.page p).valid = true) :
    (a.bump p true).physmem =
      store a.physmem ((a.page p).frame * simpagesize) 4 (a.version p + 1) := by
  unfold Pager.version
  rw [← ptr_toNat hmem h hp]
  rfl

theorem version_bump (hmem : memsize ≤ 2 ^ 19) (h : a.Inv memsize)
    (hp : (a.page p).valid = true) :
    (a.bump p write).version p = (a.version p + if write = true then 1 else 0) % 2 ^ 32 := by
  cases write with
  | true =>
    show Bytes.load (a.bump p true).physmem ((a.page p).frame * simpagesize) 4 = _
    rw [bump_physmem hmem h hp, load_store]
    rfl
  | false =>
    have hlt : a.version p < 2 ^ 32 := load_lt _ _ 4
    exact (Nat.mod_eq_of_lt hlt).symm

/-- The increment changes no other page. -/
theorem field_bump_of_ne (hmem : memsize ≤ 2 ^ 19) (h : a.Inv memsize)
    (hp : (a.page p).valid = true) (hq : (a.page q).valid = true) (hqp : q ≠ p) {i n : ℕ}
    (hin : i + n ≤ simpagesize) : (a.bump p write).field q i n = a.field q i n := by
  have hne : (a.page q).frame ≠ (a.page p).frame := fun heq => hqp (h.frame_inj hq hp heq)
  have hsize : simpagesize = 16 := rfl
  rw [hsize] at hin
  cases write with
  | true =>
    show Bytes.load (a.bump p true).physmem ((a.page q).frame * simpagesize + i) n = _
    rw [bump_physmem hmem h hp, load_store_of_disjoint (by rw [hsize]; omega)]
    rfl
  | false => rfl

/-! ## Traces -/

variable {pol : Policy σ} {s₀ s s' : Sim σ} {rs : List Reference} {r : Reference}

/-- Every resident page holds the number of its writes. -/
def Pager.Counts (rs : List Reference) (a : Pager) : Prop :=
  ∀ q, (a.page q).valid = true → a.version q = writesBefore rs q % 2 ^ 32

theorem writesBefore_append (rs : List Reference) (r : Reference) (q : Ptr) :
    writesBefore (rs ++ [r]) q = writesBefore rs q +
      if entryOf r.vaddr = some q ∧ Writes r.type then 1 else 0 := by
  unfold writesBefore
  rw [List.countP_append, List.countP_singleton]
  simp

/-- What `find_physpage` finds in the page of `p`. -/
theorem found_eq (href : Refer memsize io p vaddr write a a') (hcounts : a.Counts rs)
    (hload : (a.page p).valid = false → writesBefore rs p % 2 ^ 32 = 0) :
    a'.version p = writesBefore rs p % 2 ^ 32 := by
  cases hv : (a.page p).valid with
  | true => rw [← hcounts p hv]; exact href.field_hit hv 0 4
  | false => rw [href.version_load hv, hload hv]

/-- **One reference keeps the contents right**, if its page is resident or has not been
written. -/
theorem counts_step (hok : pol.Ok memsize) (hmem : memsize ≤ 2 ^ 19) (hinv : s.pager.Inv memsize)
    (hs : step pol memsize s r s') (hcounts : s.pager.Counts rs)
    (hload : ∀ p, entryOf r.vaddr = some p → ¬ (s.entry p).Valid →
      writesBefore rs p % 2 ^ 32 = 0) :
    s'.pager.Counts (rs ++ [r]) := by
  obtain ⟨p, a', hp, href, heq⟩ := step_refer hok hmem hs
  have hinv' := href.inv hinv
  have hpv : (a'.page p).valid = true := href.valid
  have hfound : a'.version p = writesBefore rs p % 2 ^ 32 := by
    refine found_eq href hcounts fun hv => hload p hp ?_
    rw [PgtblEntry.valid_iff, Bool.not_eq_true]
    exact hv
  intro q hq
  rw [heq] at hq ⊢
  rw [bump_page] at hq
  rw [writesBefore_append]
  simp only [hp, Option.some_inj]
  by_cases hqp : q = p
  · subst hqp
    rw [version_bump hmem hinv' hpv, hfound]
    simp [Nat.add_mod]
  · have hfour : 0 + 4 ≤ simpagesize := by decide
    obtain ⟨hqv, hver⟩ := href.field_other hinv hqp hq hfour
    have hbump : (a'.bump p (decide (Writes r.type))).field q 0 4 = _ :=
      field_bump_of_ne hmem hinv' hpv hq hqp hfour
    rw [if_neg fun h => hqp h.1.symm, Nat.add_zero, ← hcounts q hqv]
    exact hbump.trans hver

/-- In a trace that loads no written page, resident pages hold their number of writes. -/
theorem LoadedUnwritten.counts (hok : pol.Ok memsize) (hmem : memsize ≤ 2 ^ 19)
    {swapsize : BitVec 32} {physmem file : Mem} {policy : σ}
    (hs₀ : start swapsize physmem file policy = some s₀) :
    ∀ (rs : List Reference) (s : Sim σ), LoadedUnwritten pol memsize s₀ rs →
      replay pol memsize rs s₀ = some s → s.pager.Counts rs := by
  intro rs
  induction rs using List.reverseRecOn with
  | nil =>
    intro s _ hs q hq
    obtain rfl := Option.some.inj hs
    rw [(start_pager hs₀).1] at hq
    cases hq
  | append_singleton rs r ih =>
    intro s hload hs
    rw [replay_append] at hs
    obtain ⟨s₁, hs₁, hstep⟩ := Option.bind_eq_some_iff.1 hs
    obtain ⟨⟨ok, s₂⟩, hacc, rfl⟩ := Option.map_eq_some_iff.1 hstep
    have hcounts := ih s₁ (fun rs₁ r' rs₂ t p hrs => hload rs₁ r' (rs₂ ++ [r]) t p (by simp [hrs]))
      hs₁
    obtain ⟨h, hr, -⟩ := replay_run hs₀ hs₁
    exact counts_step hok hmem (hr.inv hok hmem) ⟨ok, hacc⟩ hcounts
      fun p hp => hload rs r [] s₁ p rfl hs₁ hp

/-- A trace that runs to its end serves each of its references. -/
theorem find_of_replay (hdone : (replay pol memsize rs s₀).isSome) {rs₁ rs₂ : List Reference}
    (hrs : rs = rs₁ ++ r :: rs₂) (hs : replay pol memsize rs₁ s₀ = some s) :
    ∃ x, findPhyspage pol memsize r.io r.vaddr r.type s = some x := by
  have key : ∀ (rs₁ : List Reference) (s₀ : Sim σ),
      (replay pol memsize (rs₁ ++ r :: rs₂) s₀).isSome → replay pol memsize rs₁ s₀ = some s →
      ∃ x, findPhyspage pol memsize r.io r.vaddr r.type s = some x := by
    intro rs₁
    induction rs₁ with
    | nil =>
      intro s₀ hdone hs
      obtain rfl := Option.some.inj hs
      cases hfind : findPhyspage pol memsize r.io r.vaddr r.type s₀ with
      | some x => exact ⟨x, rfl⟩
      | none =>
        have hacc : accessMem pol memsize r.io r.type r.vaddr s₀ = none := by
          unfold accessMem
          rw [hfind, Option.map_none]
        rw [List.nil_append, replay, hacc] at hdone
        cases hdone
    | cons r' rs₁ ih =>
      intro s₀ hdone hs
      rw [List.cons_append, replay] at hdone
      rw [replay] at hs
      cases hacc : accessMem pol memsize r'.io r'.type r'.vaddr s₀ with
      | none => rw [hacc] at hs; cases hs
      | some x =>
        rw [hacc] at hdone hs
        exact ih x.2 hdone hs
  subst hrs
  exact key rs₁ s₀ hdone hs

/-- The pointer that is returned points to the version counter. -/
theorem version_eq (hmem : memsize ≤ 2 ^ 19) (hinv : s.pager.Inv memsize)
    (hv : (s.pager.page p).valid = true) {ptr : BitVec 32}
    (hptr : ptr = BitVec.ofNat 32 ((s.pager.page p).frame * simpagesize)) :
    version s.physmem ptr = s.pager.version p := by
  unfold Pager.version
  rw [← ptr_toNat hmem hinv hv, ← hptr]
  rfl

/-- **When contents survive.** In a trace that runs to its end, every reference finds the number
of earlier writes in its page exactly if no page is loaded after it has been written. -/
theorem roundTrip_iff (hok : pol.Ok memsize) (hmem : memsize ≤ 2 ^ 19)
    {swapsize : BitVec 32} {physmem file : Mem} {policy : σ}
    (hs₀ : start swapsize physmem file policy = some s₀)
    (hdone : (replay pol memsize rs s₀).isSome) :
    RoundTrip pol memsize s₀ rs ↔ LoadedUnwritten pol memsize s₀ rs := by
  constructor
  · intro hround rs₁ r rs₂ s p hrs hs hp hinvalid
    obtain ⟨h, hr, -⟩ := replay_run hs₀ hs
    obtain ⟨⟨ptr, s₁⟩, hfind⟩ := find_of_replay hdone hrs hs
    obtain ⟨p', hp', href, -, hptr⟩ := findPhyspage_refer hok hmem hfind
    obtain rfl : p = p' := Option.some.inj (hp.symm.trans hp')
    rw [PgtblEntry.valid_iff, Bool.not_eq_true] at hinvalid
    rw [← hround rs₁ r rs₂ s ptr s₁ p hrs hs hfind hp,
      version_eq hmem (href.inv (hr.inv hok hmem)) href.valid hptr]
    exact href.version_load hinvalid
  · intro hload rs₁ r rs₂ s ptr s₁ p hrs hs hfind hp
    obtain ⟨h, hr, -⟩ := replay_run hs₀ hs
    have hinv := hr.inv hok hmem
    obtain ⟨p', hp', href, -, hptr⟩ := findPhyspage_refer hok hmem hfind
    obtain rfl : p = p' := Option.some.inj (hp.symm.trans hp')
    have hcounts : s.pager.Counts rs₁ :=
      LoadedUnwritten.counts hok hmem hs₀ rs₁ s
        (fun rs₁' r' rs₂' t q hrs' => hload rs₁' r' (rs₂' ++ r :: rs₂) t q (by simp [hrs, hrs'])) hs
    rw [version_eq hmem (href.inv hinv) href.valid hptr]
    refine found_eq href hcounts fun hv => hload rs₁ r rs₂ s p hrs hs hp ?_
    rw [PgtblEntry.valid_iff, Bool.not_eq_true]
    exact hv

/-- The trace of three references with which one frame is too few: page 0 is written, makes room
for page 1 and comes back. -/
def exTrace : List Reference :=
  [⟨'S', 0, Io.whole⟩, ⟨'L', 0x1000, Io.whole⟩, ⟨'L', 0, Io.whole⟩]

/-- With two frames page 0 stays, and every load finds what was written. -/
theorem roundTrip_iff_three : RoundTrip (fifo 2) 2 (exStart 0) exTrace := by
  refine (roundTrip_iff (fifo_ok 2) (by decide) (exStart_start 0) (by decide)).2 ?_
  -- page 0 is written by the first reference only, and is there at the last one
  have hall : ∀ k < 3, (replay (fifo 2) 2 (exTrace.take k) (exStart 0)).all (fun s =>
      (exTrace[k]?.bind fun r => entryOf r.vaddr).all fun p =>
        (s.entry p).page.valid || writesBefore (exTrace.take k) p == 0) = true := by
    decide
  intro rs₁ r rs₂ s p hrs hs hp hinvalid
  have hlen : rs₁.length < 3 := by
    have hthree : 3 = (rs₁ ++ r :: rs₂).length := by rw [← hrs]; rfl
    rw [List.length_append, List.length_cons] at hthree
    omega
  have htake : exTrace.take rs₁.length = rs₁ := by rw [hrs, List.take_left]
  have hget : exTrace[rs₁.length]? = some r := by rw [hrs]; simp
  have hstep := hall rs₁.length hlen
  rw [htake, hs, hget, Option.bind_some, hp, Option.all_some, Option.all_some,
    Bool.or_eq_true, beq_iff_eq, ← PgtblEntry.valid_iff] at hstep
  rw [hstep.resolve_left hinvalid, Nat.zero_mod]

/-- The entry of page 0. -/
def exPage : Ptr := (⟨0, by decide⟩, ⟨0, by decide⟩)

/-- Page 0 comes back empty: its counter is 0 where it should be 1. -/
theorem exTrace_not_roundTrip :
    (∃ s ptr s₁, replay (fifo 1) 1 (exTrace.take 2) (exStart 0) = some s ∧
      findPhyspage (fifo 1) 1 Io.whole 0 'L' s = some (ptr, s₁) ∧ version s₁.physmem ptr = 0) ∧
    writesBefore (exTrace.take 2) exPage = 1 ∧ ¬ RoundTrip (fifo 1) 1 (exStart 0) exTrace := by
  have hwrites : writesBefore (exTrace.take 2) exPage = 1 := by decide
  obtain ⟨⟨s, ptr, s₁⟩, hx⟩ : ∃ x, ((replay (fifo 1) 1 (exTrace.take 2) (exStart 0)).bind fun s =>
      (findPhyspage (fifo 1) 1 Io.whole 0 'L' s).map fun r => (s, r)) = some x :=
    Option.isSome_iff_exists.1 (by decide)
  have hversion : (((replay (fifo 1) 1 (exTrace.take 2) (exStart 0)).bind fun s =>
      (findPhyspage (fifo 1) 1 Io.whole 0 'L' s).map fun r => (s, r)).map
        fun x => version x.2.2.physmem x.2.1) = some 0 := by decide
  rw [hx] at hversion
  obtain ⟨s', hs, hx⟩ := Option.bind_eq_some_iff.1 hx
  obtain ⟨r, hfind, heq⟩ := Option.map_eq_some_iff.1 hx
  obtain ⟨rfl, rfl⟩ := Prod.mk.inj heq
  have hzero : version s₁.physmem ptr = 0 := Option.some.inj hversion
  refine ⟨⟨s', ptr, s₁, hs, hfind, hzero⟩, hwrites, fun hround => ?_⟩
  have hone := hround (exTrace.take 2) ⟨'L', 0, Io.whole⟩ [] s' ptr s₁ exPage rfl hs hfind rfl
  rw [hzero, hwrites] at hone
  exact absurd hone (by decide)

end Cscc69.Paging
