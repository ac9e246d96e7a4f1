import Cscc69.Lib.Spinlocks

/-!
# Invariants of executions that share spinlocks

Between two lock operations of an execution others may run and change the shared state. What it
knew then still holds if the others could not have changed it: they hold none of the locks that
it holds. The rule here is rely and guarantee, with the locks as the only means of exclusion.

A *guarantee* `G H s s'` says what an execution may make of `s` in one segment, which is what it
does up to its next lock operation, while it holds the locks `H`. An assertion is *stable* under
`H` (`Stable`) if nobody who holds none of `H` can break it. A program *meets* an invariant and a
guarantee (`Protocol.Meets`) if each of its segments keeps both, from the assertion of the lock
operation before it, and these assertions are stable. If all programs do, the invariant holds in
every interleaving (`Guarded.run`).

The rule also covers runs whose steps meet a condition `F`: a program may rely on `F` where it is
granted a lock operation.
-/

namespace Spinlocks

variable {L σ α β ι Φ : Type*}

/-- What may happen to the shared state in one segment under the locks `H`. -/
structure Guarantee (L σ : Type*) where
  rel : (L → Prop) → σ → σ → Prop
  refl : ∀ H s, rel H s s

/-- Those who hold none of the locks `H` do not break `A`. -/
def Stable (I : σ → Prop) (G : Guarantee L σ) (H : L → Prop) (A : σ → Prop) : Prop :=
  ∀ H' s s', (∀ l, H l → ¬ H' l) → I s → G.rel H' s s' → A s → A s'

/-- From phase `φ` the program follows the protocol, and each of its segments keeps the invariant
and the guarantee. The first segment is under way: `A s₀ s` if it may have begun in `s₀` and come
to `s`. If the program ends it does so in a phase with `Q`. -/
def Protocol.Meets (P : Protocol L Φ) (I : σ → Prop) (G : Guarantee L σ)
    (F : Prog L σ α → σ → Prop) (Q : Φ → Prop) : Φ → (σ → σ → Prop) → Prog L σ α → Prop
  | φ, A, .pure _ => (∀ s₀ s, I s₀ → A s₀ s → I s ∧ G.rel (P.holds φ) s₀ s) ∧ Q φ
  | φ, A, .act f k => ∀ s, P.Meets I G F Q φ (fun s₀ t => A s₀ s ∧ t = f s) (k s)
  | φ, A, .lock l k => ∃ B : σ → Prop,
      (∀ s₀ s, I s₀ → A s₀ s → (I s ∧ G.rel (P.holds φ) s₀ s) ∧ B s) ∧
      Stable I G (P.holds φ) B ∧
      (P.relocks φ l ∨ ∃ ψ, P.lock φ l ψ ∧
        P.Meets I G F Q ψ (fun s₀ s => s = s₀ ∧ B s ∧ F (.lock l k) s) k)
  | φ, A, .unlock l k => ∃ B : σ → Prop,
      (∀ s₀ s, I s₀ → A s₀ s → (I s ∧ G.rel (P.holds φ) s₀ s) ∧ B s) ∧
      Stable I G (P.holds φ) B ∧
      ∃ ψ, P.unlock φ l ψ ∧
        P.Meets I G F Q ψ (fun s₀ s => s = s₀ ∧ B s ∧ F (.unlock l k) s) k

variable {P : Protocol L Φ} {I : σ → Prop} {G : Guarantee L σ} {F : Prog L σ α → σ → Prop}
  {Q R : Φ → Prop} {φ ψ : Φ} {A B : σ → σ → Prop}

theorem stable_true (H : L → Prop) : Stable I G H fun _ => True := fun _ _ _ _ _ _ _ => trivial

namespace Protocol.Meets

/-- **The rule of consequence.** -/
theorem mono {p : Prog L σ α} (hp : P.Meets I G F Q φ A p)
    (hA : ∀ s₀ s, I s₀ → B s₀ s → A s₀ s) : P.Meets I G F Q φ B p := by
  induction p generalizing φ A B with
  | pure a => exact ⟨fun s₀ s hI hB => hp.1 s₀ s hI (hA s₀ s hI hB), hp.2⟩
  | act f k ih =>
    intro s
    exact ih s (hp s) fun s₀ t hI hB => ⟨hA s₀ s hI hB.1, hB.2⟩
  | lock l k ih =>
    obtain ⟨C, hC, hstable, hk⟩ := hp
    exact ⟨C, fun s₀ s hI hB => hC s₀ s hI (hA s₀ s hI hB), hstable, hk⟩
  | unlock l k ih =>
    obtain ⟨C, hC, hstable, hk⟩ := hp
    exact ⟨C, fun s₀ s hI hB => hC s₀ s hI (hA s₀ s hI hB), hstable, hk⟩

/-- **The rule for sequences.** The second program may go on with the last segment of the first:
what it knows of this is that it has kept the invariant and the guarantee so far. -/
theorem bind {g : α → Prog L σ β} {F : Prog L σ β → σ → Prop} {p : Prog L σ α}
    (hp : P.Meets I G (fun q => F (q.bind g)) Q φ A p)
    (hg : ∀ ψ a, Q ψ → P.Meets I G F R ψ (fun s₀ s => I s ∧ G.rel (P.holds ψ) s₀ s) (g a)) :
    P.Meets I G F R φ A (p.bind g) := by
  induction p generalizing φ A with
  | pure a => exact (hg φ a hp.2).mono hp.1
  | act f k ih => exact fun s => ih s (hp s)
  | lock l k ih =>
    obtain ⟨C, hC, hstable, hre | ⟨ψ, hstep, hk⟩⟩ := hp
    · exact ⟨C, hC, hstable, .inl hre⟩
    · exact ⟨C, hC, hstable, .inr ⟨ψ, hstep, ih hk⟩⟩
  | unlock l k ih =>
    obtain ⟨C, hC, hstable, ψ, hstep, hk⟩ := hp
    exact ⟨C, hC, hstable, ψ, hstep, ih hk⟩

/-- **One segment.** It keeps the invariant and the guarantee, and comes to an assertion that is
stable. -/
theorem settle {p : Prog L σ α} (hp : P.Meets I G F Q φ A p) {s₀ s : σ} (hI : I s₀)
    (hA : A s₀ s) :
    (I (p.settle s).1 ∧ G.rel (P.holds φ) s₀ (p.settle s).1) ∧
    ∃ B : σ → Prop, Stable I G (P.holds φ) B ∧ B (p.settle s).1 ∧
      P.Meets I G F Q φ (fun s₀ s => s = s₀ ∧ B s) (p.settle s).2 := by
  -- at rest, nothing has been done of the next segment
  have hrest : ∀ C : σ → Prop, ∀ t₀ t, I t₀ → t = t₀ ∧ C t →
      (I t ∧ G.rel (P.holds φ) t₀ t) ∧ C t := by
    rintro C t₀ t hI ⟨rfl, hC⟩
    exact ⟨⟨hI, G.refl _ t⟩, hC⟩
  induction p generalizing A s with
  | pure a =>
    exact ⟨hp.1 s₀ s hI hA, _, stable_true _, trivial,
      fun t₀ t hI ht => (hrest (fun _ => True) t₀ t hI ht).1, hp.2⟩
  | act f k ih => exact ih s (hp s) ⟨hA, rfl⟩
  | lock l k ih =>
    obtain ⟨C, hC, hstable, hk⟩ := hp
    exact ⟨(hC s₀ s hI hA).1, C, hstable, (hC s₀ s hI hA).2, C, hrest C, hstable, hk⟩
  | unlock l k ih =>
    obtain ⟨C, hC, hstable, hk⟩ := hp
    exact ⟨(hC s₀ s hI hA).1, C, hstable, (hC s₀ s hI hA).2, C, hrest C, hstable, hk⟩

end Protocol.Meets

/-! ## Interleavings -/

/-- The program meets invariant and guarantee when it is at rest and `B` holds. -/
abbrev Protocol.MeetsFrom (P : Protocol L Φ) (I : σ → Prop) (G : Guarantee L σ)
    (F : Prog L σ Unit → σ → Prop) (φ : Φ) (B : σ → Prop) (p : Prog L σ Unit) : Prop :=
  P.Meets I G F (fun ψ => ∀ l, ¬ P.holds ψ l) φ (fun s₀ s => s = s₀ ∧ B s) p

/-- The locks are those of the phases, and every execution is at rest at an assertion that nobody
else can break. -/
structure Guarded (P : Protocol L Φ) (I : σ → Prop) (G : Guarantee L σ)
    (F : Prog L σ Unit → σ → Prop) (starts : ι → Prog L σ Unit → Prop) (c : Config ι L σ)
    (φ : ι → Φ) : Prop where
  owners : P.Owners c.owner φ
  inv : I c.shared
  meets : ∀ i p, c.prog i = some p → ∃ B, Stable I G (P.holds (φ i)) B ∧ B c.shared ∧
    P.MeetsFrom I G F (φ i) B p
  fresh : ∀ i p, c.prog i = none → starts i p → P.MeetsFrom I G F (φ i) (fun _ => True) p

/-- The step is granted under the condition `F`. -/
def Event.Granted (F : Prog L σ Unit → σ → Prop) (c : Config ι L σ) : Event ι L σ → Prop
  | .start _ _ => True
  | .run i => ∀ p, c.prog i = some p → F p c.shared

namespace Guarded

variable [DecidableEq ι] {F : Prog L σ Unit → σ → Prop} {starts : ι → Prog L σ Unit → Prop}
  {c c' : Config ι L σ} {φ : ι → Φ} {i : ι}

/-- Execution `i` goes on, in phase `ψ`, with locks that nobody else holds. -/
theorem goOn {owner : L → Option ι} {k : Prog L σ Unit} (h : Guarded P I G F starts c φ)
    (howners : P.Owners owner (Function.update φ i ψ)) (hA : A c.shared c.shared)
    (hk : P.Meets I G F (fun ψ => ∀ l, ¬ P.holds ψ l) ψ A k) :
    Guarded P I G F starts (({ c with owner := owner } : Config ι L σ).goOn i k)
      (Function.update φ i ψ) := by
  obtain ⟨⟨hinv, hrel⟩, hself⟩ := hk.settle h.inv hA
  refine ⟨howners, hinv, fun j p hp => ?_, fun j p hp hstart => ?_⟩
  · by_cases hji : j = i
    · subst hji
      rw [Config.goOn_prog_self] at hp
      rw [Function.update_self, ← Option.some.inj hp]
      exact hself
    · rw [Config.goOn_prog_of_ne _ hji] at hp
      obtain ⟨B, hstable, hB, hmeets⟩ := h.meets j p hp
      rw [Function.update_of_ne hji]
      refine ⟨B, hstable, hstable _ _ _ (fun l hj hi => ?_) h.inv hrel hB, hmeets⟩
      -- both would hold the lock
      have hown := (howners j l).2 (by rwa [Function.update_of_ne hji])
      have hown' := (howners i l).2 (by rwa [Function.update_self])
      exact hji (Option.some.inj (hown.symm.trans hown'))
  · have hji : j ≠ i := by
      intro heq
      subst heq
      rw [Config.goOn_prog_self] at hp
      cases hp
    rw [Config.goOn_prog_of_ne _ hji] at hp
    rw [Function.update_of_ne hji]
    exact h.fresh j p hp hstart

variable [DecidableEq L]

/-- **One step.** -/
theorem step (h : Guarded P I G F starts c φ) {e : Event ι L σ} (hF : e.Granted F c)
    (hst : Step starts c e c') : ∃ φ', Guarded P I G F starts c' φ' := by
  cases hst with
  | @start i p hnone hstart =>
    have howners : P.Owners c.owner (Function.update φ i (φ i)) := by
      rw [Function.update_eq_self]
      exact h.owners
    exact ⟨_, h.goOn howners ⟨rfl, trivial⟩ (h.fresh i p hnone hstart)⟩
  | @lock i l k hprog hfree =>
    obtain ⟨B, -, hB, C, hC, -, hk⟩ := h.meets i _ hprog
    obtain hre | ⟨ψ, hstep, hk⟩ := hk
    · rw [(h.owners i l).2 (P.relocks_holds hre)] at hfree
      cases hfree
    · have hCs := (hC _ _ h.inv ⟨rfl, hB⟩).2
      exact ⟨_, h.goOn (h.owners.lock hstep hfree) ⟨rfl, hCs, hF _ hprog⟩ hk⟩
  | @unlock i l k hprog =>
    obtain ⟨B, -, hB, C, hC, -, ψ, hstep, hk⟩ := h.meets i _ hprog
    have hCs := (hC _ _ h.inv ⟨rfl, hB⟩).2
    exact ⟨_, h.goOn (h.owners.unlock hstep) ⟨rfl, hCs, hF _ hprog⟩ hk⟩

omit [DecidableEq ι] [DecidableEq L] in
theorem initial {s : σ} (hI : I s) (hφ : ∀ i l, ¬ P.holds (φ i) l)
    (hstarts : ∀ i p, starts i p → P.MeetsFrom I G F (φ i) (fun _ => True) p) :
    Guarded P I G F starts (.initial s) φ where
  owners i l := iff_of_false (Option.some_ne_none i).symm (hφ i l)
  inv := hI
  meets i p hp := by cases hp
  fresh i p _ := hstarts i p

/-- **Every interleaving keeps the invariant** if the programs meet it and the steps are granted
under the condition that they rely on. -/
theorem run (h : Guarded P I G F starts c φ)
    {past : List (Lts.Transition (Config ι L σ) (Event ι L σ))}
    (hrun : Lts.Run (Step starts) c past c') (hF : ∀ t ∈ past, t.event.Granted F t.before) :
    ∃ φ', Guarded P I G F starts c' φ' := by
  refine hrun.invariant_while (I := fun c => ∃ φ, Guarded P I G F starts c φ)
    (C := fun c e => e.Granted F c) ⟨φ, h⟩ ?_ hF
  intro c e c' h' hgranted hst
  obtain ⟨φ', hφ'⟩ := h'
  exact hφ'.step hgranted hst

end Guarded

end Spinlocks
