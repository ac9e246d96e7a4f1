import Cscc69.Lib.SecondChance
import Cscc69.Paging.Residency

/-!
# The clock policy

The policy's data is the hand. `clock_evict` finds a victim by calling itself: it moves the hand on
before the call, and after every return once more. Its victim is the one of the clock algorithm,
and the bits that it clears are the right ones (`clockEvict_secondChance`); but when it has gone
past `d` frames, the hand ends up `d` places beyond the frame after the victim (`Sweeps.hand`).
`clock_ref` sets the reference bit of the page at the hand, whichever page was referenced.

The recursion takes fuel. It ends because every call but the last clears a bit, so that more fuel
than frames is enough. (How much stack there is for it is not modelled.)
-/

namespace Cscc69.Paging

open SecondChance

variable {σ : Type*} {memsize fuel frame : ℕ} {s s' : Sim ℕ}

/-- `coremap[f].pte`, if `f` is in bounds and the pointer can be followed. -/
def Sim.pteAt (memsize : ℕ) (s : Sim ℕ) (f : ℕ) : Option Ptr :=
  if f < memsize then (s.coremap f).pte.filter fun p => (s.pgdir p.1).isSome else none

/-- Move the hand on. -/
def Sim.advance (memsize : ℕ) (s : Sim ℕ) : Sim ℕ :=
  { s with policy := if memsize ≤ s.policy + 1 then 0 else s.policy + 1 }

def clockEvict (memsize : ℕ) : ℕ → Sim ℕ → Option (ℕ × Sim ℕ)
  | 0, _ => none
  | fuel + 1, s =>
    let evict := s.policy
    match s.pteAt memsize evict with
    | none => none
    | some p =>
      if (s.entry p).frame &&& pgRef ≠ 0 then
        let s := s.setFrame p ((s.entry p).frame &&& ~~~pgRef)
        -- this candidate has a second chance
        match clockEvict memsize fuel (s.advance memsize) with
        | none => none
        | some (evict, s) => some (evict, s.advance memsize)
      else some (evict, s.advance memsize)

/-- The argument is not used. -/
def clockRef (memsize : ℕ) (_ : Ptr) (s : Sim ℕ) : Option (Sim ℕ) :=
  (s.pteAt memsize s.policy).map fun p => s.orFrame p pgRef

def clock (fuel memsize : ℕ) : Policy ℕ := ⟨clockEvict memsize fuel, clockRef memsize⟩

/-- `clock_init` -/
def clockInit : ℕ := 0

/-! ## What it leaves alone -/

theorem OnlyRef.refl (s : Sim σ) : OnlyRef s s :=
  ⟨fun _ => rfl, fun _ => rfl, fun _ => rfl, rfl, rfl, rfl, rfl⟩

theorem OnlyRef.trans {s₁ s₂ s₃ : Sim σ} (h : OnlyRef s₁ s₂) (h' : OnlyRef s₂ s₃) :
    OnlyRef s₁ s₃ where
  tables d := (h'.tables d).trans (h.tables d)
  frame p := (h'.frame p).trans (h.frame p)
  swapOff p := (h'.swapOff p).trans (h.swapOff p)
  coremap := h'.coremap.trans h.coremap
  physmem := h'.physmem.trans h.physmem
  swap := h'.swap.trans h.swap
  counters := h'.counters.trans h.counters

theorem OnlyRef.setFrame {s : Sim σ} {p : Ptr} {w : BitVec 32} (htable : (s.pgdir p.1).isSome)
    (hw : w &&& ~~~pgRef = (s.entry p).frame &&& ~~~pgRef) : OnlyRef s (s.setFrame p w) where
  tables d := by
    by_cases hd : d = p.1
    · subst hd
      rw [htable]
      simp [Sim.setFrame, Sim.setEntry]
    · simp [Sim.setFrame, Sim.setEntry, hd]
  frame q := by
    unfold Sim.setFrame
    rw [entry_setEntry]
    by_cases hq : q = p
    · subst hq
      rw [Function.update_self]
      exact hw
    · rw [Function.update_of_ne hq]
  swapOff q := by
    unfold Sim.setFrame
    rw [entry_setEntry]
    by_cases hq : q = p
    · subst hq
      rw [Function.update_self]
    · rw [Function.update_of_ne hq]
  coremap := rfl
  physmem := rfl
  swap := rfl
  counters := rfl

theorem pteAt_some {f : ℕ} {p : Ptr} (h : s.pteAt memsize f = some p) :
    f < memsize ∧ (s.coremap f).pte = some p ∧ (s.pgdir p.1).isSome = true := by
  unfold Sim.pteAt at h
  split at h
  · rename_i hf
    obtain ⟨hp, htable⟩ := Option.filter_eq_some_iff.1 h
    exact ⟨hf, hp, htable⟩
  · cases h

theorem clearRef_word (w : BitVec 32) : w &&& ~~~pgRef &&& ~~~pgRef = w &&& ~~~pgRef := by
  rw [BitVec.and_assoc, BitVec.and_self]

theorem orRef_word (w : BitVec 32) : (w ||| pgRef) &&& ~~~pgRef = w &&& ~~~pgRef := by
  ext i hi
  simp only [BitVec.getElem_and, BitVec.getElem_or, BitVec.getElem_not]
  cases pgRef[i] with
  | true => simp
  | false => simp

theorem clockEvict_onlyRef (h : clockEvict memsize fuel s = some (frame, s')) :
    frame < memsize ∧ OnlyRef s s' := by
  induction fuel generalizing s s' with
  | zero => cases h
  | succ fuel ih =>
    unfold clockEvict at h
    dsimp only at h
    split at h
    · cases h
    · rename_i p hp
      obtain ⟨hlt, -, htable⟩ := pteAt_some hp
      split at h
      · split at h
        · cases h
        · rename_i evict s₁ hrec
          obtain ⟨rfl, rfl⟩ := Prod.mk.inj (Option.some.inj h)
          obtain ⟨hlt₁, honly⟩ := ih hrec
          have hset := OnlyRef.setFrame htable (clearRef_word (s.entry p).frame)
          exact ⟨hlt₁, hset.trans ((OnlyRef.of_policy _ _).trans (honly.trans (.of_policy _ _)))⟩
      · obtain ⟨rfl, rfl⟩ := Prod.mk.inj (Option.some.inj h)
        exact ⟨hlt, .of_policy _ _⟩

theorem clock_ok (fuel memsize : ℕ) : (clock fuel memsize).Ok memsize where
  evict_lt h := (clockEvict_onlyRef h).1
  evict h := (clockEvict_onlyRef h).2
  ref h := by
    obtain ⟨p, hp, rfl⟩ := Option.map_eq_some_iff.1 h
    exact .setFrame (pteAt_some hp).2.2 (orRef_word _)

/-! ## What `clock_evict` does -/

/-- The reference bit of the page in frame `f`. -/
def Sim.bitAt (memsize : ℕ) (s : Sim ℕ) (f : ℕ) : Bool := (s.pteAt memsize f).any s.refBit

/-- `PG_REF` is set. -/
def PgtblEntry.Referenced (e : PgtblEntry) : Prop := e.frame &&& pgRef ≠ 0

def PgtblEntry.clearRef (e : PgtblEntry) : PgtblEntry := { e with frame := e.frame &&& ~~~pgRef }

theorem referenced_iff {s : Sim σ} {p : Ptr} : (s.entry p).Referenced ↔ s.refBit p = true := by
  unfold PgtblEntry.Referenced Sim.refBit
  have hbit := and_twoPow_eq_zero (s.entry p).frame (i := 2) (by decide)
  rw [ne_eq, show (s.entry p).frame &&& pgRef = 0 ↔ _ from hbit, Bool.not_eq_false]

/-- From `s` to `s'`, `PG_REF` was cleared for the pages in the frames `past`, and the entries are
otherwise the same. -/
structure Clears (memsize : ℕ) (s s' : Sim ℕ) (past : ℕ → Prop) : Prop where
  cleared : ∀ f p, past f → s.pteAt memsize f = some p → s'.entry p = (s.entry p).clearRef
  kept : ∀ p, (∀ f, past f → s.pteAt memsize f ≠ some p) → s'.entry p = s.entry p

/-- Each frame in bounds has an entry of its own. -/
structure Distinct (memsize : ℕ) (s : Sim ℕ) : Prop where
  hand : s.policy < memsize
  some : ∀ f < memsize, ∃ p, s.pteAt memsize f = some p
  inj : ∀ f < memsize, ∀ g < memsize, s.pteAt memsize f = s.pteAt memsize g → f = g

/-- `clock_evict` goes from `s` to `s'` and returns `frame`. -/
structure Sweeps (memsize : ℕ) (s : Sim ℕ) (frame : ℕ) (s' : Sim ℕ) : Prop where
  victim : frame = victim memsize s.policy (s.bitAt memsize)
  clears : Clears memsize s s' (Swept memsize s.policy (s.bitAt memsize))
  /-- once too far for every frame that was passed -/
  hand : s'.policy =
    (s.policy + 2 * passed memsize s.policy (s.bitAt memsize) + 1) % memsize

theorem advance_policy (hlt : s.policy < memsize) :
    (s.advance memsize).policy = (s.policy + 1) % memsize := by
  unfold Sim.advance
  dsimp only
  split
  · rename_i hge
    rw [Nat.le_antisymm hge hlt, Nat.mod_self]
  · rename_i hlt
    rw [Nat.mod_eq_of_lt (Nat.lt_of_not_le hlt)]

/-- The state after the first candidate has been passed over. -/
theorem pass_facts {p : Ptr} (hd : Distinct memsize s)
    (hp : s.pteAt memsize s.policy = some p) :
    let s₁ := (s.setFrame p ((s.entry p).frame &&& ~~~pgRef)).advance memsize
    s₁.policy = (s.policy + 1) % memsize ∧ s₁.pteAt memsize = s.pteAt memsize ∧
      s₁.entry = Function.update s.entry p (s.entry p).clearRef ∧
      s₁.bitAt memsize = Function.update (s.bitAt memsize) s.policy false := by
  obtain ⟨-, -, htable⟩ := pteAt_some hp
  have honly := OnlyRef.setFrame htable (clearRef_word (s.entry p).frame)
  have hpte : ((s.setFrame p ((s.entry p).frame &&& ~~~pgRef)).advance memsize).pteAt memsize =
      s.pteAt memsize := by
    funext f
    unfold Sim.pteAt
    split
    · refine congrArg (fun b => Option.filter b (s.coremap f).pte) (funext fun q => ?_)
      exact honly.tables q.1
    · rfl
  refine ⟨advance_policy hd.hand, hpte, entry_setEntry s p _, funext fun f => ?_⟩
  unfold Sim.bitAt
  rw [hpte]
  have hbit : ((s.setFrame p ((s.entry p).frame &&& ~~~pgRef)).advance memsize).refBit =
      Function.update s.refBit p false := by
    show (s.setFrame p ((s.entry p).frame &&& ~~~pgRef)).refBit = _
    rw [refBit_setFrame, BitVec.getLsbD_and]
    simp [pgRef]
  rw [hbit]
  by_cases hf : f = s.policy
  · subst hf
    rw [Function.update_self, hp]
    simp
  · rw [Function.update_of_ne hf]
    cases hq : s.pteAt memsize f with
    | none => rfl
    | some q =>
      have hqp : q ≠ p := by
        rintro rfl
        exact hf (hd.inj f (pteAt_some hq).1 s.policy hd.hand (hq.trans hp.symm))
      rw [Option.any_some, Option.any_some, Function.update_of_ne hqp]

theorem clockEvict_pass {p : Ptr} (hp : s.pteAt memsize s.policy = some p)
    (hbit : s.refBit p = true) : clockEvict memsize (fuel + 1) s =
      (clockEvict memsize fuel
        ((s.setFrame p ((s.entry p).frame &&& ~~~pgRef)).advance memsize)).map
          fun r => (r.1, r.2.advance memsize) := by
  rw [clockEvict]
  dsimp only
  rw [hp]
  dsimp only
  have href : (s.entry p).frame &&& pgRef ≠ 0 := referenced_iff.2 hbit
  rw [if_pos href]
  cases clockEvict memsize fuel
    ((s.setFrame p ((s.entry p).frame &&& ~~~pgRef)).advance memsize) with
  | none => rfl
  | some r => rfl

theorem clockEvict_stop {p : Ptr} (hp : s.pteAt memsize s.policy = some p)
    (hbit : s.refBit p = false) :
    clockEvict memsize (fuel + 1) s = some (s.policy, s.advance memsize) := by
  rw [clockEvict]
  dsimp only
  rw [hp]
  dsimp only
  rw [if_neg]
  intro href
  exact Bool.false_ne_true (hbit.symm.trans (referenced_iff.1 href))

section

variable {p : Ptr} (hd : Distinct memsize s) (hp : s.pteAt memsize s.policy = some p)
include hd hp

theorem distinct_pass :
    Distinct memsize ((s.setFrame p ((s.entry p).frame &&& ~~~pgRef)).advance memsize) := by
  obtain ⟨hhand, hpte, -, -⟩ := pass_facts hd hp
  refine ⟨?_, ?_, ?_⟩
  · rw [hhand]
    exact Nat.mod_lt _ (Nat.zero_lt_of_lt hd.hand)
  · rw [hpte]
    exact hd.some
  · rw [hpte]
    exact hd.inj

/-- The recursive call does the rest of the sweep, and then the hand moves on once more. -/
theorem sweeps_pass {frame : ℕ} {s' : Sim ℕ} (hbit : s.bitAt memsize s.policy = true)
    (hs : Sweeps memsize ((s.setFrame p ((s.entry p).frame &&& ~~~pgRef)).advance memsize) frame
      s') : Sweeps memsize s frame (s'.advance memsize) := by
  obtain ⟨hhand, hpte, hentry, hbits⟩ := pass_facts hd hp
  have hnext := passed_next hd.hand hbit
  have hvictim := victim_next hd.hand hbit
  have hswept := fun f => swept_next (f := f) hd.hand hbit
  rw [← hhand, ← hbits] at hnext hvictim
  simp only [← hhand, ← hbits] at hswept
  set s₁ := (s.setFrame p ((s.entry p).frame &&& ~~~pgRef)).advance memsize with hs₁
  -- the entry of another frame is another entry
  have hother : ∀ {f q}, s.pteAt memsize f = some q → f ≠ s.policy → q ≠ p := by
    rintro f q hq hf rfl
    exact hf (hd.inj f (pteAt_some hq).1 s.policy hd.hand (hq.trans hp.symm))
  have hcleared : s₁.bitAt memsize s.policy = false := by
    rw [hbits, Function.update_self]
  refine ⟨hs.victim.trans hvictim, ⟨fun f q hf hq => ?_, fun q hq => ?_⟩, ?_⟩
  · show s'.entry q = _
    by_cases hfp : f = s.policy
    · subst hfp
      obtain rfl : p = q := Option.some.inj (hp.symm.trans hq)
      rw [hs.clears.kept p, hentry, Function.update_self]
      intro g hg hgp
      rw [hpte] at hgp
      obtain rfl := hd.inj g (pteAt_some hgp).1 s.policy hd.hand (hgp.trans hp.symm)
      exact Bool.false_ne_true (hcleared.symm.trans hg.isSet)
    · have hwas := ((hswept f).1 hf).resolve_left hfp
      rw [hs.clears.cleared f q hwas (by rw [hpte]; exact hq), hentry,
        Function.update_of_ne (hother hq hfp)]
  · show s'.entry q = _
    have hqp : q ≠ p := by
      rintro rfl
      exact hq s.policy ((hswept _).2 (.inl rfl)) hp
    rw [hs.clears.kept q, hentry, Function.update_of_ne hqp]
    intro f hf
    rw [hpte]
    exact hq f ((hswept f).2 (.inr hf))
  · have hlt : s'.policy < memsize := by
      rw [hs.hand]
      exact Nat.mod_lt _ (Nat.zero_lt_of_lt hd.hand)
    rw [advance_policy hlt, hs.hand, ← hnext, hhand, Nat.mod_add_mod, Nat.add_assoc, Nat.add_assoc,
      Nat.mod_add_mod]
    congr 1
    omega

end

/-- **`clock_evict` ends**, with the victim of the clock algorithm, and having cleared the bits that
the algorithm clears. The recursion is on the number of frames to go past. -/
theorem clockEvict_sweeps (hd : Distinct memsize s)
    (hfuel : passed memsize s.policy (s.bitAt memsize) < fuel) :
    ∃ frame s', clockEvict memsize fuel s = some (frame, s') ∧ Sweeps memsize s frame s' := by
  generalize hn : passed memsize s.policy (s.bitAt memsize) = n at hfuel
  have hm : 0 < memsize := Nat.zero_lt_of_lt hd.hand
  induction n generalizing s fuel with
  | zero =>
    obtain ⟨fuel, rfl⟩ := Nat.exists_eq_succ_of_ne_zero hfuel.ne'
    obtain ⟨p, hp⟩ := hd.some s.policy hd.hand
    have hstop := (passed_spec memsize s.policy (s.bitAt memsize)).2.2
    rw [hn, SecondChance.victim, hn, Nat.add_zero, Nat.mod_eq_of_lt hd.hand] at hstop
    have hbit : s.refBit p = false := by
      have hbit := hstop hm
      rwa [Sim.bitAt, hp, Option.any_some] at hbit
    refine ⟨_, _, clockEvict_stop hp hbit, ?_, ⟨fun f p hf => ?_, fun p _ => rfl⟩, ?_⟩
    · rw [SecondChance.victim, hn, Nat.add_zero, Nat.mod_eq_of_lt hd.hand]
    · obtain ⟨j, hj, -⟩ := hf
      rw [hn] at hj
      exact absurd hj (Nat.not_lt_zero j)
    · rw [hn]
      exact advance_policy hd.hand
  | succ n ih =>
    obtain ⟨fuel, rfl⟩ := Nat.exists_eq_succ_of_ne_zero (Nat.ne_zero_of_lt hfuel)
    obtain ⟨p, hp⟩ := hd.some s.policy hd.hand
    have hbit : s.bitAt memsize s.policy = true := by
      have hfirst := (passed_spec memsize s.policy (s.bitAt memsize)).2.1 0 (by omega)
      rwa [Nat.add_zero, Nat.mod_eq_of_lt hd.hand] at hfirst
    have hnext := passed_next hd.hand hbit
    obtain ⟨hhand, -, -, hbits⟩ := pass_facts hd hp
    rw [hn, ← hhand, ← hbits] at hnext
    obtain ⟨frame, s', hev, hs⟩ := ih (distinct_pass hd hp) (Nat.succ.inj hnext)
      (Nat.lt_of_succ_lt_succ hfuel)
    refine ⟨frame, s'.advance memsize, ?_, sweeps_pass hd hp hbit hs⟩
    rw [clockEvict_pass hp (by rwa [Sim.bitAt, hp, Option.any_some] at hbit), hev,
      Option.map_some]

/-- **`clock_evict` ends and picks by second chance**: it returns the first frame from the hand on
whose bit is clear, or the one at the hand if all bits are set; it clears the bits on the way, and
no other bit of an entry; and the hand stays in bounds. -/
theorem clockEvict_secondChance (hd : Distinct memsize s) (hfuel : memsize < fuel) :
    ∃ frame s', clockEvict memsize fuel s = some (frame, s') ∧ s'.policy < memsize ∧
      OnlyRef s s' ∧
      ((∃ d < memsize, frame = (s.policy + d) % memsize ∧ s.bitAt memsize frame = false ∧
          (∀ j < d, s.bitAt memsize ((s.policy + j) % memsize) = true) ∧
          Clears memsize s s' fun f => ∃ j < d, (s.policy + j) % memsize = f) ∨
        ((∀ f < memsize, s.bitAt memsize f = true) ∧ frame = s.policy ∧
          Clears memsize s s' fun f => f < memsize)) := by
  obtain ⟨hle, hset, hclear⟩ := passed_spec memsize s.policy (s.bitAt memsize)
  have hm : 0 < memsize := Nat.zero_lt_of_lt hd.hand
  obtain ⟨frame, s', hev, hs⟩ := clockEvict_sweeps hd (Nat.lt_of_le_of_lt hle hfuel)
  refine ⟨frame, s', hev, ?_, (clockEvict_onlyRef hev).2, ?_⟩
  · rw [hs.hand]
    exact Nat.mod_lt _ hm
  by_cases hall : ∀ f < memsize, s.bitAt memsize f = true
  · refine .inr ⟨hall, ?_, fun f p hf => ?_, fun p hp => ?_⟩
    · rw [hs.victim, SecondChance.victim, passed_full hall, Nat.add_mod_right,
        Nat.mod_eq_of_lt hd.hand]
    · exact hs.clears.cleared f p (swept_full hall hd.hand hf)
    · refine hs.clears.kept p fun f hf => ?_
      obtain ⟨j, -, rfl⟩ := hf
      exact hp _ (Nat.mod_lt _ hm)
  · have hlt : passed memsize s.policy (s.bitAt memsize) < memsize := by
      refine Nat.lt_of_le_of_ne hle fun heq => hall fun f hf => ?_
      obtain ⟨j, hj, rfl⟩ := around_surj hd.hand hf
      exact hset j (heq.symm ▸ hj)
    exact .inl ⟨_, hlt, hs.victim, hs.victim ▸ hclear hlt, hset, hs.clears⟩

/-- Two frames and two pages, both referenced: the hand goes all around. -/
theorem clockEvict_secondChance_two : ∃ s : Sim ℕ, s.policy < 2 ∧
    ∃ frame s', clockEvict 2 3 s = some (frame, s') ∧ s'.policy < 2 ∧ OnlyRef s s' ∧
      ((∃ d < 2, frame = (s.policy + d) % 2 ∧ s.bitAt 2 frame = false ∧
          (∀ j < d, s.bitAt 2 ((s.policy + j) % 2) = true) ∧
          Clears 2 s s' fun f => ∃ j < d, (s.policy + j) % 2 = f) ∨
        ((∀ f < 2, s.bitAt 2 f = true) ∧ frame = s.policy ∧ Clears 2 s s' fun f => f < 2)) := by
  obtain ⟨s, -, hs⟩ : ∃ s : Sim ℕ,
      replay (clock 3 2) 2 [⟨'S', 0, Io.whole⟩, ⟨'L', 0x1000, Io.whole⟩] (exStart clockInit) =
        some s ∧ decide (s.policy < 2 ∧ (∀ f < (2 : ℕ), (s.pteAt 2 f).isSome = true) ∧
          ∀ f < (2 : ℕ), ∀ g < (2 : ℕ), s.pteAt 2 f = s.pteAt 2 g → f = g) = true :=
    (Option.any_eq_true ..).1 (by decide)
  obtain ⟨hhand, hsome, hinj⟩ := of_decide_eq_true hs
  exact ⟨s, hhand, clockEvict_secondChance
    ⟨hhand, fun f hf => Option.isSome_iff_exists.1 (hsome f hf), hinj⟩ (by decide)⟩

end Cscc69.Paging
