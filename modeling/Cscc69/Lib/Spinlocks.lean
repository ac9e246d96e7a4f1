import Cscc69.Lib.Runs
import Mathlib.Data.Set.Basic
import Mathlib.Logic.Function.Basic

/-!
# Executions that share spinlocks

A program (`Prog`) reads and writes a shared state and takes and releases locks. Executions of
programs are interleaved at their lock operations: a step is one lock operation of one execution,
with what its program does up to the next (`Step`). A lock is granted only if nobody holds it, also
not the execution that asks.

A *protocol* says for each phase of an execution which locks it holds and which operations may
come next. If all programs follow it, the owners of the locks can be told from the phases
(`Orderly`), in every interleaving. An execution can ask for a lock that it holds only where the
protocol says so (`Orderly.relocks`), and of two locks a deadlock is always a crossed pair: two
executions that each hold the lock the other asks for (`deadlocked_iff_crossed`).
-/

namespace Spinlocks

variable {L σ α β ι Φ : Type*}

/-! ## Programs -/

inductive Prog (L σ α : Type*)
  | pure (a : α)
  /-- change the state and go on as its old value says -/
  | act (f : σ → σ) (k : σ → Prog L σ α)
  | lock (l : L) (k : Prog L σ α)
  | unlock (l : L) (k : Prog L σ α)

namespace Prog

def bind : Prog L σ α → (α → Prog L σ β) → Prog L σ β
  | .pure a, g => g a
  | .act f k, g => .act f fun s => (k s).bind g
  | .lock l k, g => .lock l (k.bind g)
  | .unlock l k, g => .unlock l (k.bind g)

instance : Monad (Prog L σ) where
  pure := .pure
  bind := .bind

@[simp] theorem pure_eq (a : α) : (Pure.pure a : Prog L σ α) = .pure a := rfl
@[simp] theorem bind_eq {α β : Type _} (p : Prog L σ α) (g : α → Prog L σ β) :
    p >>= g = p.bind g := rfl

def read (f : σ → α) : Prog L σ α := .act id fun s => .pure (f s)
def modify (f : σ → σ) : Prog L σ Unit := .act f fun _ => .pure ()
def run (f : σ → α × σ) : Prog L σ α := .act (fun s => (f s).2) fun s => .pure (f s).1
def take (l : L) : Prog L σ Unit := .lock l (.pure ())
def release (l : L) : Prog L σ Unit := .unlock l (.pure ())

/-- Run a program up to its next lock operation. -/
def settle : Prog L σ α → σ → σ × Prog L σ α
  | .act f k, s => (k s).settle (f s)
  | p, s => (s, p)

/-- Run a program alone, with `onLock` and `onUnlock` for the lock operations. -/
def alone (onLock onUnlock : L → σ → σ) : Prog L σ α → σ → α × σ
  | .pure a, s => (a, s)
  | .act f k, s => (k s).alone onLock onUnlock (f s)
  | .lock l k, s => k.alone onLock onUnlock (onLock l s)
  | .unlock l k, s => k.alone onLock onUnlock (onUnlock l s)

theorem alone_bind (onLock onUnlock : L → σ → σ) (p : Prog L σ α) (g : α → Prog L σ β) (s : σ) :
    (p.bind g).alone onLock onUnlock s =
      (g (p.alone onLock onUnlock s).1).alone onLock onUnlock (p.alone onLock onUnlock s).2 := by
  induction p generalizing s with
  | pure a => rfl
  | act f k ih => exact ih s (f s)
  | lock l k ih => exact ih (onLock l s)
  | unlock l k ih => exact ih (onUnlock l s)

end Prog

/-! ## Interleavings -/

/-- The shared state, who holds each lock, and what each execution still has to do: `none` before
it starts. -/
structure Config (ι L σ : Type*) where
  shared : σ
  owner : L → Option ι
  prog : ι → Option (Prog L σ Unit)

inductive Event (ι L σ : Type*)
  | start (i : ι) (p : Prog L σ Unit)
  /-- the next lock operation of `i` -/
  | run (i : ι)

variable [DecidableEq ι]

/-- Execution `i` goes on with `p` up to its next lock operation. -/
def Config.goOn (c : Config ι L σ) (i : ι) (p : Prog L σ Unit) : Config ι L σ :=
  { c with
    shared := (p.settle c.shared).1,
    prog := Function.update c.prog i (some (p.settle c.shared).2) }

@[simp] theorem Config.goOn_owner (c : Config ι L σ) (i : ι) (p : Prog L σ Unit) :
    (c.goOn i p).owner = c.owner := rfl

@[simp] theorem Config.goOn_prog_self (c : Config ι L σ) (i : ι) (p : Prog L σ Unit) :
    (c.goOn i p).prog i = some (p.settle c.shared).2 := Function.update_self ..

theorem Config.goOn_prog_of_ne (c : Config ι L σ) {i j : ι} (hji : j ≠ i) (p : Prog L σ Unit) :
    (c.goOn i p).prog j = c.prog j := Function.update_of_ne hji ..

variable [DecidableEq L]

def Config.setOwner (c : Config ι L σ) (l : L) (o : Option ι) : Config ι L σ :=
  { c with owner := Function.update c.owner l o }

omit [DecidableEq ι] in
@[simp] theorem Config.setOwner_prog (c : Config ι L σ) (l : L) (o : Option ι) :
    (c.setOwner l o).prog = c.prog := rfl

omit [DecidableEq ι] in
@[simp] theorem Config.setOwner_shared (c : Config ι L σ) (l : L) (o : Option ι) :
    (c.setOwner l o).shared = c.shared := rfl

omit [DecidableEq ι] in
@[simp] theorem Config.setOwner_owner_self (c : Config ι L σ) (l : L) (o : Option ι) :
    (c.setOwner l o).owner l = o := Function.update_self ..

omit [DecidableEq ι] in
theorem Config.setOwner_owner_of_ne (c : Config ι L σ) {l m : L} (hml : m ≠ l) (o : Option ι) :
    (c.setOwner l o).owner m = c.owner m := Function.update_of_ne hml ..

/-- Execution `i` may run the programs with `starts i`. -/
inductive Step (starts : ι → Prog L σ Unit → Prop) :
    Config ι L σ → Event ι L σ → Config ι L σ → Prop
  | start {c i p} : c.prog i = none → starts i p → Step starts c (.start i p) (c.goOn i p)
  | lock {c i l k} : c.prog i = some (.lock l k) → c.owner l = none →
      Step starts c (.run i) ((c.setOwner l (some i)).goOn i k)
  | unlock {c i l k} : c.prog i = some (.unlock l k) →
      Step starts c (.run i) ((c.setOwner l none).goOn i k)

/-- Nothing has started. -/
def Config.initial (s : σ) : Config ι L σ := ⟨s, fun _ => none, fun _ => none⟩

/-! ## Deadlocks -/

/-- The next operation of `i` is to take `l`. -/
def Config.Wants (c : Config ι L σ) (i : ι) (l : L) : Prop :=
  ∃ k, c.prog i = some (.lock l k)

/-- Execution `i` asks for a lock that it holds. -/
def Config.SelfBlocked (c : Config ι L σ) (i : ι) : Prop := ∃ l, c.Wants i l ∧ c.owner l = some i

/-- Each execution in `D` asks for a lock that another one in `D` holds. -/
def Config.Deadlocked (c : Config ι L σ) (D : Set ι) : Prop :=
  D.Nonempty ∧ ∀ i ∈ D, ∃ l, c.Wants i l ∧ ∃ j ∈ D, j ≠ i ∧ c.owner l = some j

structure Config.Safe (c : Config ι L σ) : Prop where
  not_selfBlocked : ∀ i, ¬ c.SelfBlocked i
  not_deadlocked : ∀ D, ¬ c.Deadlocked D

/-- One execution holds `a` and asks for `b`, another holds `b` and asks for `a`. -/
def Config.Crossed (c : Config ι L σ) (a b : L) : Prop :=
  ∃ i j, i ≠ j ∧ c.owner a = some i ∧ c.Wants i b ∧ c.owner b = some j ∧ c.Wants j a

omit [DecidableEq ι] [DecidableEq L] in
/-- **Two locks.** Every deadlock is a crossed pair. -/
theorem deadlocked_iff_crossed {c : Config ι L σ} {a b : L} (hab : ∀ l, l = a ∨ l = b) :
    (∃ D, c.Deadlocked D) ↔ c.Crossed a b := by
  constructor
  · intro hex
    obtain ⟨D, ⟨i, hi⟩, hD⟩ := hex
    -- follow the owners: `j` holds a lock, `k` holds the other one, and asks for that of `j`
    obtain ⟨l, -, j, hj, -, hown⟩ := hD i hi
    obtain ⟨m, hwj, k, hk, hkj, hownk⟩ := hD j hj
    obtain ⟨n, hwk, j', hj', hjk, hownj'⟩ := hD k hk
    have hlm : l ≠ m := by
      intro heq
      subst heq
      exact hkj (Option.some.inj (hownk.symm.trans hown))
    have hmn : n ≠ m := by
      intro heq
      subst heq
      exact hjk (Option.some.inj (hownj'.symm.trans hownk))
    have hln : n = l := by
      obtain rfl | rfl := hab l <;> obtain rfl | rfl := hab m <;> obtain rfl | rfl := hab n <;>
        first | rfl | exact absurd rfl hlm | exact absurd rfl hmn
    subst hln
    obtain rfl | rfl := hab n
    · obtain rfl | rfl := hab m
      · exact absurd rfl hlm
      · exact ⟨j, k, hkj.symm, hown, hwj, hownk, hwk⟩
    · obtain rfl | rfl := hab m
      · exact ⟨k, j, hkj, hownk, hwk, hown, hwj⟩
      · exact absurd rfl hlm
  · intro hcross
    obtain ⟨i, j, hij, hi, hwi, hj, hwj⟩ := hcross
    refine ⟨{i, j}, ⟨i, .inl rfl⟩, fun x hx => ?_⟩
    obtain rfl | rfl := hx
    · exact ⟨b, hwi, j, .inr rfl, hij.symm, hj⟩
    · exact ⟨a, hwj, i, .inl rfl, hij, hi⟩

/-! ## Protocols -/

/-- The phases of an execution, the locks it holds in them and the operations that may come
next. -/
structure Protocol (L Φ : Type*) where
  holds : Φ → L → Prop
  /-- The execution may ask for a lock that it holds. It does not come any further then. -/
  relocks : Φ → L → Prop
  lock : Φ → L → Φ → Prop
  unlock : Φ → L → Φ → Prop
  relocks_holds : ∀ {φ l}, relocks φ l → holds φ l
  lock_not_holds : ∀ {φ l ψ}, lock φ l ψ → ¬ holds φ l
  lock_holds : ∀ {φ l ψ}, lock φ l ψ → ∀ m, holds ψ m ↔ m = l ∨ holds φ m
  unlock_held : ∀ {φ l ψ}, unlock φ l ψ → holds φ l
  unlock_holds : ∀ {φ l ψ}, unlock φ l ψ → ∀ m, holds ψ m ↔ m ≠ l ∧ holds φ m

variable {P : Protocol L Φ} {φ ψ : Φ} {Q R : Φ → Prop}

/-- From phase `φ` the program follows the protocol, and if it ends it does so in a phase with
`Q`. -/
def Protocol.Follows (P : Protocol L Φ) (Q : Φ → Prop) : Φ → Prog L σ α → Prop
  | φ, .pure _ => Q φ
  | φ, .act _ k => ∀ s, P.Follows Q φ (k s)
  | φ, .lock l k => P.relocks φ l ∨ ∃ ψ, P.lock φ l ψ ∧ P.Follows Q ψ k
  | φ, .unlock l k => ∃ ψ, P.unlock φ l ψ ∧ P.Follows Q ψ k

namespace Protocol.Follows

omit [DecidableEq L] in
/-- **The rule for sequences.** -/
theorem bind {p : Prog L σ α} {g : α → Prog L σ β} (hp : P.Follows Q φ p)
    (hg : ∀ ψ a, Q ψ → P.Follows R ψ (g a)) : P.Follows R φ (p.bind g) := by
  induction p generalizing φ with
  | pure a => exact hg φ a hp
  | act f k ih => exact fun s => ih s (hp s)
  | lock l k ih =>
    obtain hre | ⟨ψ, hstep, hk⟩ := hp
    · exact .inl hre
    · exact .inr ⟨ψ, hstep, ih hk⟩
  | unlock l k ih =>
    obtain ⟨ψ, hstep, hk⟩ := hp
    exact ⟨ψ, hstep, ih hk⟩

omit [DecidableEq L] in
/-- **The rule of consequence.** -/
theorem mono {p : Prog L σ α} (hp : P.Follows Q φ p) (hQ : ∀ ψ, Q ψ → R ψ) : P.Follows R φ p := by
  induction p generalizing φ with
  | pure a => exact hQ φ hp
  | act f k ih => exact fun s => ih s (hp s)
  | lock l k ih =>
    obtain hre | ⟨ψ, hstep, hk⟩ := hp
    · exact .inl hre
    · exact .inr ⟨ψ, hstep, ih hk⟩
  | unlock l k ih =>
    obtain ⟨ψ, hstep, hk⟩ := hp
    exact ⟨ψ, hstep, ih hk⟩

omit [DecidableEq L] in
theorem settle {p : Prog L σ α} (hp : P.Follows Q φ p) (s : σ) : P.Follows Q φ (p.settle s).2 := by
  induction p generalizing s with
  | pure a => exact hp
  | act f k ih => exact ih s (hp s) (f s)
  | lock l k ih => exact hp
  | unlock l k ih => exact hp

end Protocol.Follows

/-- The locks are those that the phases say. -/
def Protocol.Owners (P : Protocol L Φ) (owner : L → Option ι) (φ : ι → Φ) : Prop :=
  ∀ i l, owner l = some i ↔ P.holds (φ i) l

/-- A lock that is granted was held in no phase. -/
theorem Protocol.Owners.lock {owner : L → Option ι} {φ : ι → Φ} {i : ι} {l : L}
    (h : P.Owners owner φ) (hstep : P.lock (φ i) l ψ) (hfree : owner l = none) :
    P.Owners (Function.update owner l (some i)) (Function.update φ i ψ) := by
  intro j m
  have hnone : ¬ P.holds (φ j) l := by
    intro hj
    rw [(h j l).2 hj] at hfree
    cases hfree
  by_cases hji : j = i
  · subst hji
    rw [Function.update_self, P.lock_holds hstep, ← h j m]
    by_cases hml : m = l
    · subst hml
      rw [Function.update_self]
      exact iff_of_true rfl (.inl rfl)
    · rw [Function.update_of_ne hml, or_iff_right hml]
  · rw [Function.update_of_ne hji]
    by_cases hml : m = l
    · subst hml
      rw [Function.update_self]
      exact iff_of_false (fun heq => hji (Option.some.inj heq).symm) hnone
    · rw [Function.update_of_ne hml]
      exact h j m

theorem Protocol.Owners.unlock {owner : L → Option ι} {φ : ι → Φ} {i : ι} {l : L}
    (h : P.Owners owner φ) (hstep : P.unlock (φ i) l ψ) :
    P.Owners (Function.update owner l none) (Function.update φ i ψ) := by
  intro j m
  have hown : owner l = some i := (h i l).2 (P.unlock_held hstep)
  by_cases hji : j = i
  · subst hji
    rw [Function.update_self, P.unlock_holds hstep, ← h j m]
    by_cases hml : m = l
    · subst hml
      rw [Function.update_self]
      exact iff_of_false (Option.some_ne_none j).symm fun hne => hne.1 rfl
    · rw [Function.update_of_ne hml]
      exact (and_iff_right hml).symm
  · rw [Function.update_of_ne hji, ← h j m]
    by_cases hml : m = l
    · subst hml
      rw [Function.update_self]
      exact iff_of_false (Option.some_ne_none j).symm fun heq =>
        hji (Option.some.inj (hown.symm.trans heq)).symm
    · rw [Function.update_of_ne hml]

/-- The phase `φ i` of each execution tells which locks it holds, and that it follows the protocol
until it holds none. -/
structure Orderly (P : Protocol L Φ) (starts : ι → Prog L σ Unit → Prop) (c : Config ι L σ)
    (φ : ι → Φ) : Prop where
  owner : ∀ i l, c.owner l = some i ↔ P.holds (φ i) l
  follows : ∀ i p, c.prog i = some p ∨ c.prog i = none ∧ starts i p →
    P.Follows (fun ψ => ∀ l, ¬ P.holds ψ l) (φ i) p
  fresh : ∀ i, c.prog i = none → ∀ l, ¬ P.holds (φ i) l

namespace Orderly

variable {starts : ι → Prog L σ Unit → Prop} {c c' : Config ι L σ} {φ : ι → Φ} {i j : ι} {l : L}
  {k : Prog L σ Unit}

omit [DecidableEq L] in
/-- Only one execution goes on. -/
theorem goOn {ψ : Φ} (howner : ∀ j m, c.owner m = some j ↔
      P.holds (Function.update φ i ψ j) m)
    (hfollows : ∀ j ≠ i, ∀ p, c.prog j = some p ∨ c.prog j = none ∧ starts j p →
      P.Follows (fun ψ => ∀ l, ¬ P.holds ψ l) (φ j) p)
    (hfresh : ∀ j, c.prog j = none → ∀ m, ¬ P.holds (φ j) m)
    (hk : P.Follows (fun ψ => ∀ l, ¬ P.holds ψ l) ψ k) :
    Orderly P starts (c.goOn i k) (Function.update φ i ψ) := by
  refine ⟨howner, fun j p hp => ?_, fun j hj => ?_⟩
  by_cases hji : j = i
  · subst hji
    rw [Config.goOn_prog_self] at hp
    obtain hp | ⟨hp, -⟩ := hp
    · rw [Function.update_self, ← Option.some.inj hp]
      exact hk.settle c.shared
    · cases hp
  · rw [Config.goOn_prog_of_ne c hji] at hp
    rw [Function.update_of_ne hji]
    exact hfollows j hji p hp
  · have hji : j ≠ i := by
      intro heq
      subst heq
      rw [Config.goOn_prog_self] at hj
      cases hj
    rw [Config.goOn_prog_of_ne c hji] at hj
    rw [Function.update_of_ne hji]
    exact hfresh j hj

/-- A granted lock takes its execution on by one phase. -/
theorem lock (h : Orderly P starts c φ) (hprog : c.prog i = some (.lock l k))
    (hfree : c.owner l = none) :
    ∃ ψ, P.lock (φ i) l ψ ∧ Orderly P starts
      ((c.setOwner l (some i)).goOn i k)
      (Function.update φ i ψ) := by
  obtain hre | ⟨ψ, hstep, hk⟩ := h.follows i _ (.inl hprog)
  · rw [(h.owner i l).2 (P.relocks_holds hre)] at hfree
    cases hfree
  · have howner := Protocol.Owners.lock h.owner hstep hfree
    exact ⟨ψ, hstep, .goOn howner (fun j _ => h.follows j) h.fresh hk⟩

/-- So does the release of a lock. -/
theorem unlock (h : Orderly P starts c φ) (hprog : c.prog i = some (.unlock l k)) :
    ∃ ψ, P.unlock (φ i) l ψ ∧ Orderly P starts
      ((c.setOwner l none).goOn i k)
      (Function.update φ i ψ) := by
  obtain ⟨ψ, hstep, hk⟩ := h.follows i _ (.inl hprog)
  have howner := Protocol.Owners.unlock h.owner hstep
  exact ⟨ψ, hstep, .goOn howner (fun j _ => h.follows j) h.fresh hk⟩

omit [DecidableEq ι] [DecidableEq L] in
/-- Where an execution asks for a lock that it holds, the protocol lets it. -/
theorem relocks (h : Orderly P starts c φ) (hprog : c.prog i = some (.lock l k))
    (hown : c.owner l = some i) : P.relocks (φ i) l := by
  obtain hre | ⟨ψ, hstep, -⟩ := h.follows i _ (.inl hprog)
  · exact hre
  · exact absurd ((h.owner i l).1 hown) (P.lock_not_holds hstep)

omit [DecidableEq L] in
/-- An execution that starts holds nothing, and only it goes on. -/
theorem start (h : Orderly P starts c φ) (hnone : c.prog i = none) (hstart : starts i k) :
    Orderly P starts (c.goOn i k) φ := by
  have hgo : Orderly P starts (c.goOn i k) (Function.update φ i (φ i)) :=
    .goOn (by rw [Function.update_eq_self]; exact h.owner) (fun j _ => h.follows j)
      h.fresh (h.follows i k (.inr ⟨hnone, hstart⟩))
  rwa [Function.update_eq_self] at hgo

/-- **Every interleaving is orderly** if the programs follow the protocol. -/
theorem step (h : Orderly P starts c φ) {e : Event ι L σ} (hst : Step starts c e c') :
    ∃ φ', Orderly P starts c' φ' := by
  cases hst with
  | start hnone hstart => exact ⟨φ, h.start hnone hstart⟩
  | lock hprog hfree =>
    obtain ⟨ψ, -, h'⟩ := h.lock hprog hfree
    exact ⟨_, h'⟩
  | unlock hprog =>
    obtain ⟨ψ, -, h'⟩ := h.unlock hprog
    exact ⟨_, h'⟩

omit [DecidableEq ι] [DecidableEq L] in
theorem initial {s : σ} (hφ : ∀ i l, ¬ P.holds (φ i) l) (hstarts : ∀ i p, starts i p →
      P.Follows (fun ψ => ∀ l, ¬ P.holds ψ l) (φ i) p) :
    Orderly P starts (.initial s) φ := by
  refine ⟨fun i l => iff_of_false (Option.some_ne_none i).symm (hφ i l), fun i p hp => ?_,
    fun i _ => hφ i⟩
  obtain hp | ⟨-, hp⟩ := hp
  · cases hp
  · exact hstarts i p hp

end Orderly

end Spinlocks
