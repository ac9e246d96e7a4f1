import Mathlib.Data.Set.Card
import Mathlib.Order.CompletePartialOrder
import Mathlib.Tactic.Common

/-!
# Directories and the places that name nodes

Some nodes are directories. A directory has places, and a place names a node. `Reach` holds of the
directories that are reached from a root, `entries` are the places in these, and `refs` counts
the places among them that name a node.

Two kinds of changes are described by what they do to the places of the directories reached before:
places that name no directories go and come (`Changes`), or one comes that names a new directory
with two places of its own (`AddsDir`). Each comes with what is reached afterwards, which places
are entries, and how the counts change.

Places can have labels. `tally` counts the places of a directory by their labels, and forgets which
places they are. Each kind of change adds to it or takes away what has come or gone
(`Changes.tally_insert`, `Changes.tally_erase`, `AddsDir.tally`).
-/

namespace Naming

variable {ν π : Type*}

structure Space (ν π : Type*) where
  root : ν
  isDir : ν → Prop
  places : ν → Set π
  target : π → ν

namespace Space

variable {S S' : Space ν π} {n m d : ν} {p q : π}

/-- The directories reached from the root. -/
inductive Reach (S : Space ν π) : ν → Prop
  | root : Reach S S.root
  | step {n : ν} {p : π} : Reach S n → p ∈ S.places n → S.isDir (S.target p) →
      Reach S (S.target p)

/-- The places in the directories reached. -/
def entries (S : Space ν π) : Set π := {p | ∃ n, S.Reach n ∧ p ∈ S.places n}

/-- How many of them name `m`. -/
noncomputable def refs (S : Space ν π) (m : ν) : ℕ := {p ∈ S.entries | S.target p = m}.ncard

theorem Reach.mem_entries (h : S.Reach n) (hp : p ∈ S.places n) : p ∈ S.entries := ⟨n, h, hp⟩

/-- A node reached is the root or is named by an entry. -/
theorem Reach.cases_named (h : S.Reach n) : n = S.root ∨ ∃ p ∈ S.entries, S.target p = n := by
  cases h with
  | root => exact .inl rfl
  | step hn hp _ => exact .inr ⟨_, hn.mem_entries hp, rfl⟩

/-- A set of nodes with the root that is closed under naming has every node reached. -/
theorem Reach.closed {C : ν → Prop} (h : S.Reach n) (hroot : C S.root)
    (hstep : ∀ n p, C n → p ∈ S.places n → S.isDir (S.target p) → C (S.target p)) : C n := by
  induction h with
  | root => exact hroot
  | step _ hp hdir ih => exact hstep _ _ ih hp hdir

theorem refs_eq_zero_iff (hfin : S.entries.Finite) :
    S.refs m = 0 ↔ ∀ p ∈ S.entries, S.target p ≠ m := by
  rw [refs, Set.ncard_eq_zero (hfin.subset (Set.sep_subset _ _)), Set.eq_empty_iff_forall_notMem]
  constructor
  · intro h p hp hm
    exact h p ⟨hp, hm⟩
  · intro h p hp
    exact h p hp.1 hp.2

/-- The places of two sets that name `m`, by `f`. -/
theorem ncard_sep_union (f : π → ν) {A B N : Set π} (hfin : A.Finite) (hunion : A = B ∪ N)
    (hdisj : Disjoint B N) (m : ν) :
    {q ∈ A | f q = m}.ncard = {q ∈ B | f q = m}.ncard + {q ∈ N | f q = m}.ncard := by
  have hsplit : {q ∈ A | f q = m} = {q ∈ B | f q = m} ∪ {q ∈ N | f q = m} := by
    ext q
    simp only [hunion, Set.mem_union, Set.mem_sep_iff]
    exact or_and_right
  rw [hunion] at hfin
  rw [hsplit, Set.ncard_union_eq
    (Set.disjoint_of_subset (Set.sep_subset _ _) (Set.sep_subset _ _) hdisj)
    (hfin.subset ((Set.sep_subset _ _).trans Set.subset_union_left))
    (hfin.subset ((Set.sep_subset _ _).trans Set.subset_union_right))]

open Classical in
theorem ncard_sep_insert (f : π → ν) {N : Set π} (hp : p ∉ N) (hN : N.Finite) (m : ν) :
    {q ∈ insert p N | f q = m}.ncard =
      {q ∈ N | f q = m}.ncard + if f p = m then 1 else 0 := by
  split
  · rename_i hm
    have heq : {q ∈ insert p N | f q = m} = insert p {q ∈ N | f q = m} := by
      ext q
      simp only [Set.mem_insert_iff, Set.mem_ofPred_eq]
      constructor
      · intro h
        exact h.1.imp_right fun hq => ⟨hq, h.2⟩
      · intro h
        rcases h with rfl | ⟨hq, hm'⟩
        · exact ⟨.inl rfl, hm⟩
        · exact ⟨.inr hq, hm'⟩
    rw [heq, Set.ncard_insert_of_notMem (fun h => hp h.1) (hN.subset (Set.sep_subset _ _))]
  · rename_i hm
    have heq : {q ∈ insert p N | f q = m} = {q ∈ N | f q = m} := by
      ext q
      simp only [Set.mem_insert_iff, Set.mem_ofPred_eq]
      constructor
      · intro h
        obtain ⟨rfl | hq, hm'⟩ := h
        · exact absurd hm' hm
        · exact ⟨hq, hm'⟩
      · intro h
        exact ⟨.inr h.1, h.2⟩
    rw [heq, Nat.add_zero]

open Classical in
theorem ncard_sep_singleton (f : π → ν) (p : π) (m : ν) :
    {q ∈ ({p} : Set π) | f q = m}.ncard = if f p = m then 1 else 0 := by
  have h := ncard_sep_insert f (Set.notMem_empty p) Set.finite_empty m
  have hempty : {q ∈ (∅ : Set π) | f q = m} = ∅ := Set.sep_empty _
  rw [hempty, Set.ncard_empty, Nat.zero_add] at h
  rw [← h, insert_empty_eq]

/-! ## Places go and come -/

/-- The places `gone`, which name no directories, go, and the places `come` come to directory `d`.
The other places keep naming what they did. -/
structure Changes (S S' : Space ν π) (d : ν) (gone come : Set π) : Prop where
  root : S'.root = S.root
  dir : S.Reach d
  gone_mem : ∀ p ∈ gone, p ∈ S.entries ∧ ¬ S.isDir (S.target p)
  fresh : ∀ p ∈ come, p ∉ S.entries
  places : ∀ n, S.Reach n → ∀ q, q ∈ S'.places n ↔ q ∈ S.places n ∧ q ∉ gone ∨ q ∈ come ∧ n = d
  target : ∀ q ∈ S.entries, q ∉ gone → S'.target q = S.target q
  isDir : ∀ q ∈ S.entries, q ∉ gone → (S'.isDir (S.target q) ↔ S.isDir (S.target q))

variable {gone come : Set π}

/-- What was reached is reached still. -/
theorem Changes.reach_of (h : Changes S S' d gone come) (hn : S.Reach n) : S'.Reach n := by
  induction hn with
  | root =>
    rw [← h.root]
    exact .root
  | @step n q hn hq hdir ih =>
    have hmem := hn.mem_entries hq
    have hkept : q ∉ gone := fun hgone => (h.gone_mem q hgone).2 hdir
    have hstep := ih.step ((h.places n hn q).2 (.inl ⟨hq, hkept⟩))
    rw [h.target q hmem hkept] at hstep
    exact hstep ((h.isDir q hmem hkept).2 hdir)

section

variable (h : Changes S S' d gone come) (hfile : ∀ p ∈ come, ¬ S'.isDir (S'.target p))
include h hfile

/-- When no place that comes names a directory, the same directories are reached. -/
theorem Changes.reach : S'.Reach n ↔ S.Reach n := by
  constructor
  · intro hn
    refine hn.closed (C := S.Reach) (by rw [h.root]; exact .root) fun n q hn hq hdir => ?_
    rcases (h.places n hn q).1 hq with ⟨hq, hkept⟩ | ⟨hcome, -⟩
    · have hmem := hn.mem_entries hq
      rw [h.target q hmem hkept] at hdir ⊢
      exact hn.step hq ((h.isDir q hmem hkept).1 hdir)
    · exact absurd hdir (hfile q hcome)
  · exact h.reach_of

theorem Changes.entries : S'.entries = S.entries \ gone ∪ come := by
  ext q
  constructor
  · intro hq
    obtain ⟨n, hn, hqn⟩ := hq
    have hn := (h.reach hfile).1 hn
    rcases (h.places n hn q).1 hqn with ⟨hq, hkept⟩ | ⟨hcome, -⟩
    · exact .inl ⟨hn.mem_entries hq, hkept⟩
    · exact .inr hcome
  · intro hq
    rcases hq with ⟨hq, hkept⟩ | hcome
    · obtain ⟨n, hn, hqn⟩ := hq
      exact ⟨n, h.reach_of hn, (h.places n hn q).2 (.inl ⟨hqn, hkept⟩)⟩
    · exact ⟨d, h.reach_of h.dir, (h.places d h.dir q).2 (.inr ⟨hcome, rfl⟩)⟩

/-- An entry was there before, or has come. -/
theorem Changes.mem_entries (hq : q ∈ S'.entries) :
    (q ∈ S.entries ∧ q ∉ gone ∧ S'.target q = S.target q) ∨ q ∈ come := by
  rw [h.entries hfile] at hq
  rcases hq with ⟨hq, hkept⟩ | hcome
  · exact .inl ⟨hq, hkept, h.target q hq hkept⟩
  · exact .inr hcome

/-- The count of a node changes by the places that name it. -/
theorem Changes.refs (hfin : S.entries.Finite) (hfin' : S'.entries.Finite) (m : ν) :
    S'.refs m + {q ∈ gone | S.target q = m}.ncard =
      S.refs m + {q ∈ come | S'.target q = m}.ncard := by
  -- `T` has the entries that stay
  have hgone : S.entries = S.entries \ gone ∪ gone :=
    (Set.sdiff_union_of_subset fun p hp => (h.gone_mem p hp).1).symm
  have hdisj : Disjoint (S.entries \ gone) come :=
    Set.disjoint_left.2 fun q hq hcome => h.fresh q hcome hq.1
  have hbefore := ncard_sep_union S.target hfin hgone Set.disjoint_sdiff_left m
  have hafter := ncard_sep_union S'.target hfin' (h.entries hfile) hdisj m
  have hsame : {q ∈ S.entries \ gone | S'.target q = m} =
      {q ∈ S.entries \ gone | S.target q = m} := by
    rw [Set.sep_ext_iff]
    intro q hq
    rw [h.target q hq.1 hq.2]
  rw [hsame] at hafter
  rw [Space.refs, Space.refs, hbefore, hafter]
  omega

end

/-! ## A directory comes -/

/-- The place `p` comes, and names a new directory `j` with a place for itself and one for the
directory that it is in. -/
structure AddsDir (S S' : Space ν π) (d : ν) (p : π) (j : ν) (here up : π) : Prop
    extends Changes S S' d ∅ {p} where
  new : ¬ S.Reach j
  names : S'.target p = j
  directory : S'.isDir j
  own : ∀ q, q ∈ S'.places j ↔ q = here ∨ q = up
  here_target : S'.target here = j
  up_target : S'.target up = d
  here_fresh : here ∉ S.entries
  up_fresh : up ∉ S.entries
  distinct : p ≠ here ∧ p ≠ up ∧ here ≠ up

variable {j : ν} {here up : π}

theorem AddsDir.mem_places (h : AddsDir S S' d p j here up) (hn : S.Reach n) :
    q ∈ S'.places n ↔ q ∈ S.places n ∨ q = p ∧ n = d := by
  rw [h.places n hn q, Set.mem_singleton_iff, and_iff_left (Set.notMem_empty q)]

theorem AddsDir.reach (h : AddsDir S S' d p j here up) :
    S'.Reach n ↔ S.Reach n ∨ n = j := by
  constructor
  · intro hn
    refine hn.closed (C := fun n => S.Reach n ∨ n = j) (.inl (by rw [h.root]; exact .root))
      fun n q hn hq hdir => ?_
    rcases hn with hn | rfl
    · rcases (h.mem_places hn).1 hq with hq | ⟨rfl, -⟩
      · have hmem := hn.mem_entries hq
        rw [h.target q hmem (Set.notMem_empty q)] at hdir ⊢
        exact .inl (hn.step hq ((h.isDir q hmem (Set.notMem_empty q)).1 hdir))
      · exact .inr h.names
    · rcases (h.own q).1 hq with rfl | rfl
      · exact .inr h.here_target
      · rw [h.up_target]
        exact .inl h.dir
  · intro hn
    rcases hn with hn | rfl
    · exact h.reach_of hn
    · have hstep := (h.reach_of h.dir).step ((h.mem_places h.dir).2 (.inr ⟨rfl, rfl⟩))
      rw [h.names] at hstep
      exact hstep h.directory

theorem AddsDir.entries (h : AddsDir S S' d p j here up) :
    S'.entries = S.entries ∪ {p, here, up} := by
  ext q
  simp only [Set.mem_union, Set.mem_insert_iff, Set.mem_singleton_iff]
  constructor
  · intro hq
    obtain ⟨n, hn, hqn⟩ := hq
    rcases h.reach.1 hn with hn | rfl
    · rcases (h.mem_places hn).1 hqn with hq | ⟨rfl, -⟩
      · exact .inl ⟨n, hn, hq⟩
      · exact .inr (.inl rfl)
    · exact .inr (.inr ((h.own q).1 hqn))
  · intro hq
    rcases hq with hq | rfl | hq
    · obtain ⟨n, hn, hqn⟩ := hq
      exact ⟨n, h.reach.2 (.inl hn), (h.mem_places hn).2 (.inl hqn)⟩
    · exact ⟨d, h.reach.2 (.inl h.dir), (h.mem_places h.dir).2 (.inr ⟨rfl, rfl⟩)⟩
    · exact ⟨j, h.reach.2 (.inr rfl), (h.own q).2 hq⟩

open Classical in
theorem AddsDir.refs (h : AddsDir S S' d p j here up) (hfin : S'.entries.Finite) (m : ν) :
    S'.refs m = S.refs m + (if m = j then 2 else 0) + if m = d then 1 else 0 := by
  have hne : d ≠ j := fun heq => h.new (by rw [← heq]; exact h.dir)
  obtain ⟨hph, hpu, hhu⟩ := h.distinct
  have hdisj : Disjoint S.entries {p, here, up} := by
    rw [Set.disjoint_right]
    simp only [Set.mem_insert_iff, Set.mem_singleton_iff]
    rintro q (rfl | rfl | rfl)
    · exact h.fresh _ rfl
    · exact h.here_fresh
    · exact h.up_fresh
  have hcount := ncard_sep_insert S'.target (p := p) (N := {here, up}) (by simp [hph, hpu])
    (Set.toFinite _) m
  rw [ncard_sep_insert S'.target (p := here) (N := {up}) (by simp [hhu]) (Set.toFinite _) m,
    ncard_sep_singleton, h.names, h.here_target, h.up_target] at hcount
  have hsame : {q ∈ S.entries | S'.target q = m} = {q ∈ S.entries | S.target q = m} := by
    rw [Set.sep_ext_iff]
    intro q hq
    rw [h.target q hq (Set.notMem_empty q)]
  rw [Space.refs, ncard_sep_union S'.target hfin h.entries hdisj m, hsame, ← Space.refs, hcount]
  have hj : j = m ↔ m = j := eq_comm
  have hd : d = m ↔ m = d := eq_comm
  simp only [hj, hd]
  by_cases hmj : m = j
  · rw [if_pos hmj, if_pos hmj, if_neg (by rw [hmj]; exact hne.symm)]
  · rw [if_neg hmj, if_neg hmj]
    omega

/-! ## Labels -/

section

variable {α : Type*} {l k : π → α} {a : α}

/-- How many places of a directory that is reached have a label. -/
noncomputable def tally (S : Space ν π) (l : π → α) (x : ν × α) : ℕ :=
  {q | S.Reach x.1 ∧ q ∈ S.places x.1 ∧ l q = x.2}.ncard

theorem tally_of_reach (hn : S.Reach n) : S.tally l (n, a) = {q ∈ S.places n | l q = a}.ncard := by
  simp only [tally, hn, true_and]

theorem tally_of_not_reach (hn : ¬ S.Reach n) : S.tally l (n, a) = 0 := by
  simp only [tally, hn, false_and]
  exact Set.ncard_empty π

theorem tally_ne_zero_iff (hfin : S.entries.Finite) :
    S.tally l (n, a) ≠ 0 ↔ S.Reach n ∧ ∃ q ∈ S.places n, l q = a := by
  by_cases hn : S.Reach n
  · rw [tally_of_reach hn, and_iff_right hn]
    have hfin' : {q ∈ S.places n | l q = a}.Finite := hfin.subset fun q hq => hn.mem_entries hq.1
    exact Nat.pos_iff_ne_zero.symm.trans (Set.ncard_pos hfin')
  · exact iff_of_false (fun h => h (tally_of_not_reach hn)) fun h => hn h.1

/-- The places of a directory that was reached, by their labels. -/
theorem Changes.places_tally (h : Changes S S' d gone come) (hfin : S.entries.Finite)
    (hcome : come.Finite) (hgone : ∀ q ∈ gone, ∀ n, S.Reach n → (q ∈ S.places n ↔ n = d))
    (hlabel : ∀ q ∈ S.entries, q ∉ gone → k q = l q) (hn : S.Reach n) (a : α) :
    {q ∈ S'.places n | k q = a}.ncard + {q ∈ gone | (d, l q) = (n, a)}.ncard =
      {q ∈ S.places n | l q = a}.ncard + {q ∈ come | (d, k q) = (n, a)}.ncard := by
  -- `K` are the places that stay
  set K := {q ∈ S.places n | q ∉ gone ∧ l q = a} with hK
  have hKfin : K.Finite := hfin.subset fun q hq => hn.mem_entries hq.1
  have hbefore : {q ∈ S.places n | l q = a} = K ∪ {q ∈ gone | (d, l q) = (n, a)} := by
    ext q
    simp only [hK, Set.mem_union, Set.mem_ofPred_eq, Prod.mk.injEq]
    constructor
    · rintro ⟨hq, ha⟩
      by_cases hg : q ∈ gone
      · exact .inr ⟨hg, ((hgone q hg n hn).1 hq).symm, ha⟩
      · exact .inl ⟨hq, hg, ha⟩
    · rintro (⟨hq, -, ha⟩ | ⟨hg, hd, ha⟩)
      · exact ⟨hq, ha⟩
      · exact ⟨(hgone q hg n hn).2 hd.symm, ha⟩
  have hafter : {q ∈ S'.places n | k q = a} = K ∪ {q ∈ come | (d, k q) = (n, a)} := by
    ext q
    simp only [hK, Set.mem_union, Set.mem_ofPred_eq, Prod.mk.injEq, h.places n hn q]
    constructor
    · rintro ⟨⟨hq, hg⟩ | ⟨hc, hd⟩, ha⟩
      · rw [hlabel q (hn.mem_entries hq) hg] at ha
        exact .inl ⟨hq, hg, ha⟩
      · exact .inr ⟨hc, hd.symm, ha⟩
    · rintro (⟨hq, hg, ha⟩ | ⟨hc, hd, ha⟩)
      · rw [hlabel q (hn.mem_entries hq) hg]
        exact ⟨.inl ⟨hq, hg⟩, ha⟩
      · exact ⟨.inr ⟨hc, hd.symm⟩, ha⟩
  have hdisj : Disjoint K {q ∈ gone | (d, l q) = (n, a)} :=
    Set.disjoint_left.2 fun q hq hq' => hq.2.1 hq'.1
  have hdisj' : Disjoint K {q ∈ come | (d, k q) = (n, a)} :=
    Set.disjoint_left.2 fun q hq hq' => h.fresh q hq'.1 (hn.mem_entries hq.1)
  have hgfin : {q ∈ gone | (d, l q) = (n, a)}.Finite :=
    hfin.subset fun q hq => (h.gone_mem q hq.1).1
  rw [hbefore, hafter, Set.ncard_union_eq hdisj hKfin hgfin,
    Set.ncard_union_eq hdisj' hKfin (hcome.subset (Set.sep_subset _ _))]
  omega

/-- **The tally of a change**, when no place that comes names a directory. -/
theorem Changes.tally (h : Changes S S' d gone come)
    (hfile : ∀ p ∈ come, ¬ S'.isDir (S'.target p)) (hfin : S.entries.Finite) (hcome : come.Finite)
    (hgone : ∀ q ∈ gone, ∀ n, S.Reach n → (q ∈ S.places n ↔ n = d))
    (hlabel : ∀ q ∈ S.entries, q ∉ gone → k q = l q) (x : ν × α) :
    S'.tally k x + {q ∈ gone | (d, l q) = x}.ncard =
      S.tally l x + {q ∈ come | (d, k q) = x}.ncard := by
  obtain ⟨n, a⟩ := x
  by_cases hn : S.Reach n
  · rw [tally_of_reach hn, tally_of_reach ((h.reach hfile).2 hn)]
    exact h.places_tally hfin hcome hgone hlabel hn a
  · have hne : d ≠ n := by
      rintro rfl
      exact hn h.dir
    rw [tally_of_not_reach hn, tally_of_not_reach (mt (h.reach hfile).1 hn)]
    simp [hne]

variable [DecidableEq ν] [DecidableEq α]

/-- One place comes. -/
theorem Changes.tally_insert (h : Changes S S' d ∅ {p}) (hfile : ¬ S'.isDir (S'.target p))
    (hfin : S.entries.Finite) (hlabel : ∀ q ∈ S.entries, k q = l q) :
    S'.tally k = S.tally l + Pi.single (d, k p) 1 := by
  funext x
  have hx := h.tally (l := l) (k := k) (by simpa using hfile) hfin (Set.finite_singleton p)
    (fun q hq => absurd hq (Set.notMem_empty q)) (fun q hq _ => hlabel q hq) x
  rw [Set.sep_empty, Set.ncard_empty, Nat.add_zero,
    ncard_sep_singleton (fun q => (d, k q)) p x] at hx
  rw [hx, Pi.add_apply]
  by_cases heq : (d, k p) = x
  · rw [if_pos heq, ← heq, Pi.single_eq_same]
  · rw [if_neg heq, Pi.single_eq_of_ne (Ne.symm heq)]

/-- One place goes. -/
theorem Changes.tally_erase (h : Changes S S' d {p} ∅) (hfin : S.entries.Finite)
    (hplace : ∀ n, S.Reach n → (p ∈ S.places n ↔ n = d))
    (hlabel : ∀ q ∈ S.entries, q ≠ p → k q = l q) :
    S.tally l = S'.tally k + Pi.single (d, l p) 1 := by
  funext x
  have hx := h.tally (l := l) (k := k) (fun q hq => absurd hq (Set.notMem_empty q)) hfin
    Set.finite_empty (fun q hq => by rwa [Set.mem_singleton_iff.1 hq])
    (fun q hq hne => hlabel q hq hne) x
  rw [Set.sep_empty, Set.ncard_empty, Nat.add_zero,
    ncard_sep_singleton (fun q => (d, l q)) p x] at hx
  rw [← hx, Pi.add_apply]
  by_cases heq : (d, l p) = x
  · rw [if_pos heq, ← heq, Pi.single_eq_same]
  · rw [if_neg heq, Pi.single_eq_of_ne (Ne.symm heq)]

/-- A directory comes, with the two places in it. -/
theorem AddsDir.tally (h : AddsDir S S' d p j here up) (hfin : S.entries.Finite)
    (hlabel : ∀ q ∈ S.entries, k q = l q) :
    S'.tally k = S.tally l + Pi.single (d, k p) 1 + Pi.single (j, k here) 1 +
      Pi.single (j, k up) 1 := by
  have hne : d ≠ j := fun heq => h.new (by rw [← heq]; exact h.dir)
  funext x
  obtain ⟨n, a⟩ := x
  simp only [Pi.add_apply, Pi.single_apply, Prod.mk.injEq]
  by_cases hnj : n = j
  · subst hnj
    have hown : {q ∈ S'.places n | k q = a} = {q ∈ ({here, up} : Set π) | k q = a} :=
      Set.ext fun q => and_congr_left fun _ => h.own q
    have hnot : here ∉ ({up} : Set π) := fun hmem => h.distinct.2.2 hmem
    rw [tally_of_not_reach h.new, tally_of_reach (h.reach.2 (.inr rfl)), hown,
      ncard_sep_insert k hnot (Set.finite_singleton up) a, ncard_sep_singleton]
    simp only [hne.symm, false_and, if_false, true_and, eq_comm (a := a)]
    split_ifs <;> rfl
  · simp only [hnj, false_and, if_false, add_zero]
    by_cases hn : S.Reach n
    · have hat := h.places_tally (l := l) (k := k) hfin (Set.finite_singleton p)
        (fun q hq => absurd hq (Set.notMem_empty q)) (fun q hq _ => hlabel q hq) hn a
      rw [Set.sep_empty, Set.ncard_empty, Nat.add_zero,
        ncard_sep_singleton (fun q => (d, k q)) p (n, a)] at hat
      rw [tally_of_reach hn, tally_of_reach (h.reach.2 (.inl hn)), hat]
      simp only [Prod.mk.injEq, eq_comm]
    · have hne' : n ≠ d := by
        rintro rfl
        exact hn h.dir
      rw [tally_of_not_reach hn, tally_of_not_reach fun h' => (h.reach.1 h').elim hn hnj]
      simp only [hne', false_and, if_false, add_zero]

end

end Space

end Naming
